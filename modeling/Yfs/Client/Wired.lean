import Yfs.Client.EndToEnd
import Yfs.Rpc.Stub

/-!
# Operations over the wire

In `Client/EndToEnd` an RPC is executed by the extent server on its disk.  Here it is a message as
well: `extent_client` marshals the arguments, `rpcs::dispatch` finds the handler that `extent_smain`
has registered, the handler unmarshals them and invokes `extent_server`, and the reply takes the
same way back.  A number is cut down to the width of its type when it is sent.

An operation of `yfs_client` does the same over the wire (`Op.eval_wired`): what is cut off, the
server does not look at, or it is zero.
-/

set_option autoImplicit false

namespace Yfs
namespace Client

open Machine
open Extent (Env Rep Store inumOf)
open Rpc (Handler Server Ty Value)

/-! ## The server -/

/-- A method of `extent_server`, as it is registered: the request that the arguments make, and the
result that there is in the reply, which may depend on how many requests have been served before.
The status is `OK`. -/
def extentMethod (envs : Nat → Env) (args : List Ty) (ret : Ty)
    (request : List Value → Option Extent.Request)
    (result : Nat → Extent.Reply → Option ret.Val) : Handler Node where
  args := args
  ret := ret
  meth vs n := do
    let q ← request vs
    let (r, n') ← n.respond envs q
    let x ← result n.served r
    some ((0, x), n')

/-- An `extent_protocol::attr` with fields of 32 bits. -/
def wireAttr (a : Extent.Attr) : Rpc.Attr :=
  ⟨.ofNat a.type, .ofNat a.atime, .ofNat a.mtime, .ofNat a.ctime, .ofNat a.size⟩

def ofWireAttr (a : Rpc.Attr) : Extent.Attr :=
  ⟨a.type.toNat, a.atime.toNat, a.mtime.toNat, a.ctime.toNat, a.size.toNat⟩

section Methods

-- `ints` is what is in the variable for the reply, an `int`, which `put` and `remove` do not set
variable (envs : Nat → Env) (ints : Nat → Int32)

/-- `extent_server::get`. -/
def getMethod : Handler Node :=
  extentMethod envs [.scalar .ull] .string
    (fun | [⟨.scalar .ull, id⟩] => some (.get (UInt64.toNat id)) | _ => none)
    (fun | _, .content buf => some buf | _, _ => none)

/-- `extent_server::getattr`. -/
def getattrMethod : Handler Node :=
  extentMethod envs [.scalar .ull] .attr
    (fun | [⟨.scalar .ull, id⟩] => some (.getattr (UInt64.toNat id)) | _ => none)
    (fun | _, .attr a => some (wireAttr a) | _, _ => none)

/-- `extent_server::put`. -/
def putMethod : Handler Node :=
  extentMethod envs [.scalar .ull, .string] (.scalar .int)
    (fun | [⟨.scalar .ull, id⟩, ⟨.string, buf⟩] => some (.put (UInt64.toNat id) buf) | _ => none)
    (fun | k, .ok => some (ints k) | _, _ => none)

/-- `extent_server::remove`. -/
def removeMethod : Handler Node :=
  extentMethod envs [.scalar .ull] (.scalar .int)
    (fun | [⟨.scalar .ull, id⟩] => some (.remove (UInt64.toNat id)) | _ => none)
    (fun | k, .ok => some (ints k) | _, _ => none)

/-- `extent_server::create`. -/
def createMethod : Handler Node :=
  extentMethod envs [.scalar .uint] (.scalar .ull)
    (fun | [⟨.scalar .uint, type⟩] => some (.create (UInt32.toNat type)) | _ => none)
    (fun | _, .id i => some (UInt64.ofNat i) | _, _ => none)

/-- What `extent_smain` registers. -/
def extentMain : List (Int32 × Handler Node) :=
  [(Rpc.Proc.get, getMethod envs), (Rpc.Proc.getattr, getattrMethod envs),
    (Rpc.Proc.put, putMethod envs ints), (Rpc.Proc.remove, removeMethod envs ints),
    (Rpc.Proc.create, createMethod envs)]

theorem signatures_extentMain :
    (extentMain envs ints).map Rpc.signature = Rpc.registered .extent := rfl

end Methods

/-! ## The client -/

/-- What goes along with a request: the fields of the header that are not for the method, and what
the memory contains that the messages are written into. -/
structure Wire where
  mem : Nat → UInt8
  mem' : Nat → UInt8
  xid : Int32
  cltNonce : UInt32
  xidRep : Int32

/-- `rpcc::call` of a client that is bound, and what the caller makes of it: the result, or the
status. -/
def remote (srv : Server Node) (w : Wire) (proc : Int32) (vs : List Value) (R : Ty) (n : Node) :
    Option (Except Int R.Val × Node) :=
  (srv.call w.mem w.mem' ⟨w.xid, proc, w.cltNonce, srv.nonce, w.xidRep⟩ vs R n).map fun
    | ((ret, some r), n) => (if ret = 0 then .ok r else .error ret.toInt, n)
    | ((ret, none), n) => (.error ret.toInt, n)

/-- A command is executed, and RPCs of `extent_client` are messages. -/
def Node.wired (srv : Server Node) (wires : Nat → Wire) : (c : Cmd) → Node → Option (c.Ans × Node)
  | .acquire lid, n => n.lock (.acquire lid)
  | .release lid, n => n.lock (.release lid)
  | .create type, n =>
    (remote srv (wires n.served) Rpc.Proc.create [⟨.scalar .uint, UInt32.ofNat type⟩]
      (.scalar .ull) n).map fun (a, n) ↦ (a.map UInt64.toNat, n)
  | .get id, n =>
    remote srv (wires n.served) Rpc.Proc.get [⟨.scalar .ull, UInt64.ofNat id⟩] .string n
  | .getattr id, n =>
    (remote srv (wires n.served) Rpc.Proc.getattr [⟨.scalar .ull, UInt64.ofNat id⟩] .attr n).map
      fun (a, n) ↦ (a.map ofWireAttr, n)
  | .put id buf, n =>
    (remote srv (wires n.served) Rpc.Proc.put [⟨.scalar .ull, UInt64.ofNat id⟩, ⟨.string, buf⟩]
      (.scalar .int) n).map fun (a, n) ↦ (a.map fun _ ↦ (), n)
  | .remove id, n =>
    (remote srv (wires n.served) Rpc.Proc.remove [⟨.scalar .ull, UInt64.ofNat id⟩]
      (.scalar .int) n).map
      fun (a, n) ↦ (a.map fun _ ↦ (), n)

/-! ## One command -/

section Commands

variable {envs : Nat → Env} {ints : Nat → Int32} {srv : Server Node} {n : Node}

/-- A call of a method that is registered. -/
theorem remote_eq {f : Handler Node} {proc : Int32} {vs : List Value} {n' : Node} {x : f.ret.Val}
    (w : Wire) (hproc : srv.procs proc = some f) (hargs : vs.map Value.ty = f.args)
    (hmeth : f.meth vs n = some ((0, x), n'))
    (hsize : Rpc.headerSz + (Rpc.encodeAll vs).length < 2 ^ 30)
    (hret : Rpc.headerSz + (f.ret.encode x).length < 2 ^ 30) :
    remote srv w proc vs f.ret n = some (.ok x, n') := by
  have hcall := Server.call_eq w.mem w.mem'
    (h := ⟨w.xid, proc, w.cltNonce, srv.nonce, w.xidRep⟩) hproc (Or.inr rfl) hargs hsize hmeth
    (by decide) hret
  rw [remote, hcall]
  rfl

/-- A method does what `extent_server` does. -/
theorem meth_extentMethod {args : List Ty} {ret : Ty} {request : List Value → Option Extent.Request}
    {result : Nat → Extent.Reply → Option ret.Val} {vs : List Value} {q : Extent.Request}
    {reply : Extent.Reply} {n' : Node} {x : ret.Val} (hq : request vs = some q)
    (hrespond : n.respond envs q = some (reply, n')) (hx : result n.served reply = some x) :
    (extentMethod envs args ret request result).meth vs n = some ((0, x), n') := by
  simp only [extentMethod, hq, hrespond, hx, Option.bind_eq_bind, Option.bind_some]

/-- Only the last 31 bits of an id matter. -/
theorem inumOf_toNat (id : Nat) : inumOf (UInt64.ofNat id).toNat = inumOf id := by
  rw [inumOf, inumOf, UInt64.toNat_ofNat']
  exact Nat.mod_mod_of_dvd id (by decide)

/-- The methods are found under their numbers. -/
theorem procs_extentMain {nonce : UInt32}
    (hsrv : Rpc.rpcs nonce (extentMain envs ints) = some srv) :
    ∀ p ∈ extentMain envs ints, srv.procs p.1 = some p.2 := by
  obtain ⟨srv', hsrv', -, hprocs⟩ := Rpc.exists_rpcs (extentMain envs ints) nonce
    (Rpc.nodup_registered .extent)
  obtain rfl := Option.some_inj.1 (hsrv.symm.trans hsrv')
  exact fun p hp ↦ hprocs p (List.mem_cons_of_mem _ hp)

theorem lt_of_kind {type : Nat} (h : type ∈ [Extent.tDir, Extent.tFile, Extent.tSymlink]) :
    type < 2 ^ 32 := by
  simp only [List.mem_cons, List.not_mem_nil, or_false] at h
  rcases h with rfl | rfl | rfl <;> decide

theorem toNat_uint {m : Nat} (h : m < 2 ^ 32) : (UInt32.ofNat m).toNat = m := by
  rw [UInt32.toNat_ofNat']
  exact Nat.mod_eq_of_lt h

/-- What `getattr` returns fits into its fields, up to time stamps. -/
theorem same_wireAttr {a : Extent.Attr} {id : Nat} (htype : a.type < 2 ^ 32)
    (hsize : a.size < 2 ^ 32) :
    (Cmd.getattr id).Same (.ok a) (.ok (ofWireAttr (wireAttr a))) := by
  have htype' : (ofWireAttr (wireAttr a)).type = a.type := toNat_uint htype
  have hsize' : (ofWireAttr (wireAttr a)).size = a.size := toNat_uint hsize
  rw [Cmd.Same, Cmd.untimed, Cmd.untimed, htype', hsize']

theorem length_encode_id (id : UInt64) : (Rpc.encodeAll [⟨.scalar .ull, id⟩]).length = 8 := by
  simp [Rpc.encodeAll, Ty.encode, Rpc.Scalar.width]

theorem length_encode_type (type : UInt32) :
    (Rpc.encodeAll [⟨.scalar .uint, type⟩]).length = 4 := by
  simp [Rpc.encodeAll, Ty.encode, Rpc.Scalar.width]

theorem length_encode_scalar (a : Rpc.Scalar) (x : a.Val) :
    Rpc.headerSz + ((Ty.scalar a).encode x).length < 2 ^ 30 := by
  have hwidth : a.width ≤ 8 := by cases a <;> decide
  simp only [Ty.encode, length_bigEndian, Rpc.headerSz]
  omega

theorem length_encode_attr (a : Rpc.Attr) : Rpc.headerSz + (Ty.attr.encode a).length < 2 ^ 30 := by
  have hlen : (Rpc.Attr.encode a).length = 20 := by simp [Rpc.Attr.encode, Rpc.encodeUInt]
  change Rpc.headerSz + (Rpc.Attr.encode a).length < _
  rw [hlen]
  decide

theorem length_encode_data {buf : Bytes} (h : buf.length ≤ 81920) :
    Rpc.headerSz + (Ty.string.encode buf).length < 2 ^ 30 := by
  change Rpc.headerSz + (Rpc.encodeString buf).length < _
  rw [Rpc.length_encodeString, Rpc.headerSz]
  omega

theorem length_encode_put (id : UInt64) (buf : Bytes) :
    (Rpc.encodeAll [⟨.scalar .ull, id⟩, ⟨.string, buf⟩]).length = 8 + (4 + buf.length) := by
  simp [Rpc.encodeAll, Ty.encode, Rpc.Scalar.width, Rpc.length_encodeString]

/-! ### The procedures -/

section Procedures

variable {nonce : UInt32} {n' : Node} (hsrv : Rpc.rpcs nonce (extentMain envs ints) = some srv)
  (w : Wire)
  {id : UInt64} {buf : Bytes}
include hsrv

theorem remote_get (h : n.respond envs (.get id.toNat) = some (.content buf, n'))
    (hbuf : buf.length ≤ 81920) :
    remote srv w Rpc.Proc.get [⟨.scalar .ull, id⟩] .string n = some (.ok buf, n') :=
  remote_eq (f := getMethod envs) w (procs_extentMain hsrv (_, getMethod envs)
    (by simp [extentMain])) rfl
    (meth_extentMethod rfl h rfl) (by rw [length_encode_id]; decide) (length_encode_data hbuf)

theorem remote_getattr {a : Extent.Attr}
    (h : n.respond envs (.getattr id.toNat) = some (.attr a, n')) :
    remote srv w Rpc.Proc.getattr [⟨.scalar .ull, id⟩] .attr n = some (.ok (wireAttr a), n') :=
  remote_eq (f := getattrMethod envs) w
    (procs_extentMain hsrv (_, getattrMethod envs) (by simp [extentMain])) rfl
    (meth_extentMethod rfl h rfl) (by rw [length_encode_id]; decide) (length_encode_attr _)

theorem remote_put (h : n.respond envs (.put id.toNat buf) = some (.ok, n'))
    (hbuf : buf.length ≤ 81920) :
    remote srv w Rpc.Proc.put [⟨.scalar .ull, id⟩, ⟨.string, buf⟩] (.scalar .int) n =
      some (.ok (ints n.served), n') :=
  remote_eq (f := putMethod envs ints) w (procs_extentMain hsrv (_, putMethod envs ints)
    (by simp [extentMain])) rfl
    (meth_extentMethod rfl h rfl) (by rw [length_encode_put, Rpc.headerSz]; omega)
    (length_encode_scalar _ _)

theorem remote_remove (h : n.respond envs (.remove id.toNat) = some (.ok, n')) :
    remote srv w Rpc.Proc.remove [⟨.scalar .ull, id⟩] (.scalar .int) n =
      some (.ok (ints n.served), n') :=
  remote_eq (f := removeMethod envs ints) w
    (procs_extentMain hsrv (_, removeMethod envs ints) (by simp [extentMain])) rfl
    (meth_extentMethod rfl h rfl) (by rw [length_encode_id]; decide) (length_encode_scalar _ _)

theorem remote_create {type : UInt32} {i : Nat}
    (h : n.respond envs (.create type.toNat) = some (.id i, n')) :
    remote srv w Rpc.Proc.create [⟨.scalar .uint, type⟩] (.scalar .ull) n =
      some (.ok (UInt64.ofNat i), n') :=
  remote_eq (f := createMethod envs) w
    (procs_extentMain hsrv (_, createMethod envs) (by simp [extentMain])) rfl
    (meth_extentMethod rfl h rfl) (by rw [length_encode_type]; decide) (length_encode_scalar _ _)

end Procedures

/-- **One command over the wire.**  What the map answers, the server answers. -/
theorem Node.wired_of_handler {nonce : UInt32} (wires : Nat → Wire)
    (hsrv : Rpc.rpcs nonce (extentMain envs ints) = some srv) {c : Cmd} {s s' : State} {a : c.Ans}
    (hprom : Promised c s) (hn : n.Holds s) (h : handler c s = some (a, s')) :
    ∃ b n', n.wired srv wires c = some (b, n') ∧ c.Same a b ∧ n'.Holds s' := by
  cases c with
  | acquire lid => exact Node.lock_of_handler rfl hn h
  | release lid => exact Node.lock_of_handler rfl hn h
  | get id =>
    obtain ⟨r, r', σ', n', b, hstep, hr, hrespond, hn', hb, hsame⟩ := Node.exists_reply envs
      (.get (UInt64.ofNat id).toNat) hprom hn h rfl
      (congrArg Extent.Call.readFile (inumOf_toNat id))
    obtain ⟨f, hf, he⟩ := Option.map_eq_some_iff.1 hstep
    obtain ⟨rfl, rfl⟩ := Prod.mk.inj he
    obtain rfl : r' = .bytes (some f.data) := by cases r' <;> simp_all [Extent.Ret.untimed]
    obtain rfl := Option.some_inj.1 hb
    exact ⟨_, n', remote_get hsrv (wires n.served) hrespond (hn.files.file _ f hf).small,
      hsame, hn'⟩
  | getattr id =>
    obtain ⟨r, r', σ', n', b, hstep, hr, hrespond, hn', hb, hsame⟩ := Node.exists_reply envs
      (.getattr (UInt64.ofNat id).toNat) hprom hn h rfl
      (congrArg Extent.Call.getattr (inumOf_toNat id))
    obtain ⟨f, hf, he⟩ := Option.map_eq_some_iff.1 hstep
    obtain ⟨rfl, rfl⟩ := Prod.mk.inj he
    have hfile := hn.files.file _ f hf
    obtain ⟨attr, rfl, htype, hsize⟩ :
        ∃ attr : Extent.Attr, r' = .attr attr ∧ attr.type = f.type ∧ attr.size = f.data.length := by
      cases r' <;> simp_all [Extent.Ret.untimed]
    obtain rfl := Option.some_inj.1 hb
    have hsmall := hfile.small
    have hlt : attr.size < 2 ^ 32 := by omega
    refine ⟨.ok (ofWireAttr (wireAttr attr)), n', ?_,
      hsame.trans (same_wireAttr (htype ▸ lt_of_kind hfile.kind) hlt), hn'⟩
    rw [Node.wired, remote_getattr hsrv (wires n.served) hrespond]
    rfl
  | put id buf =>
    obtain ⟨r, r', σ', n', b, hstep, hr, hrespond, hn', hb, hsame⟩ := Node.exists_reply envs
      (.put (UInt64.ofNat id).toNat buf) hprom hn h rfl
      (congrArg (Extent.Call.writeFile · buf) (inumOf_toNat id))
    obtain ⟨f, hf, hlen, -, rfl, rfl⟩ := Store.of_writeFile hstep
    obtain rfl : r' = .done := by cases r' <;> simp_all [Extent.Ret.untimed]
    obtain rfl := Option.some_inj.1 hb
    refine ⟨.ok (), n', ?_, hsame, hn'⟩
    rw [Node.wired, remote_put hsrv (wires n.served) hrespond hlen]
    rfl
  | remove id =>
    obtain ⟨r, r', σ', n', b, hstep, hr, hrespond, hn', hb, hsame⟩ := Node.exists_reply envs
      (.remove (UInt64.ofNat id).toNat) hprom hn h rfl
      (congrArg Extent.Call.removeFile (inumOf_toNat id))
    obtain ⟨f, hf, he⟩ := Option.map_eq_some_iff.1 hstep
    obtain ⟨rfl, rfl⟩ := Prod.mk.inj he
    obtain rfl : r' = .done := by cases r' <;> simp_all [Extent.Ret.untimed]
    obtain rfl := Option.some_inj.1 hb
    refine ⟨.ok (), n', ?_, hsame, hn'⟩
    rw [Node.wired, remote_remove hsrv (wires n.served) hrespond]
    rfl
  | create type =>
    have htype : type < 2 ^ 32 := by
      obtain ⟨⟨r, σ'⟩, hstep⟩ := Option.isSome_iff_exists.1 (hprom _ rfl)
      exact lt_of_kind (Store.of_allocInode hstep).1
    obtain ⟨r, r', σ', n', b, hstep, hr, hrespond, hn', hb, hsame⟩ := Node.exists_reply envs
      (.create (UInt32.ofNat type).toNat) hprom hn h rfl
      (congrArg Extent.Call.allocInode (toNat_uint htype))
    obtain ⟨-, i, hi, rfl, rfl⟩ := Store.of_allocInode hstep
    obtain rfl : r' = .inum i := by cases r' <;> simp_all [Extent.Ret.untimed]
    obtain rfl := Option.some_inj.1 hb
    have hlt : (UInt64.ofNat i).toNat = i := by
      have hle := (Store.firstFree_bounds hi).1.2
      rw [UInt64.toNat_ofNat']
      exact Nat.mod_eq_of_lt (by omega)
    refine ⟨.ok (UInt64.ofNat i).toNat, n', ?_, by rw [hlt]; exact hsame, hn'⟩
    rw [Node.wired, remote_create hsrv (wires n.served) hrespond]
    rfl

end Commands

/-! ## Operations -/

/-- **Every operation does over the wire what it does on the map**, if the requests that it makes
are within what the server promises.  The server with its methods can be set up, for any nonce. -/
theorem Op.eval_wired (nonce : UInt32) (envs : Nat → Env) (ints : Nat → Int32)
    (wires : Nat → Wire) {op : Op} {s s' : State} {n : Node} {o : Except Fault Result}
    (hprom : op.prog.Always handler Promised s) (hn : n.Holds s)
    (he : op.prog.eval handler s = some (o, s')) :
    ∃ srv n', Rpc.rpcs nonce (extentMain envs ints) = some srv ∧
      op.prog.eval (Node.wired srv wires) n = some (o, n') ∧ n'.Holds s' := by
  obtain ⟨srv, hsrv, -, -⟩ := Rpc.exists_rpcs (extentMain envs ints) nonce
    (Rpc.nodup_registered .extent)
  obtain ⟨n', hrun, hn'⟩ := Prog.eval_simulation (g := Node.wired srv wires)
    (Q := fun s n ↦ n.Holds s) (fun hP hn hc ↦ Node.wired_of_handler wires hsrv hP hn hc)
    op.respects hprom hn he
  exact ⟨srv, n', hsrv, hrun, hn'⟩

/-- A file of three bytes is read. -/
theorem Op.eval_wired_read : ∃ d srv n, Rep d (Store.filled [97, 98, 99] 1) ∧
    Rpc.rpcs 7 (extentMain (fun _ ↦ default) fun _ ↦ 9) = some srv ∧
    (Op.read 2 10 (0 : Nat)).prog.eval (Node.wired srv fun _ ↦ ⟨fun _ ↦ 0, fun _ ↦ 0, 3, 5, 1⟩)
      ⟨d, fun _ ↦ false, 0⟩ = some (.ok (.data Status.OK [97, 98, 99]), n) := by
  obtain ⟨calls, d, hs⟩ := Extent.exists_session_filled [97, 98, 99] 1 (by decide) (by decide)
    (by decide)
  have hf : Store.filled [97, 98, 99] 1 (inumOf 2) = some ⟨Extent.tFile, [97, 98, 99]⟩ := rfl
  have hrun : Runs (Op.read 2 10 (0 : Nat)).body (Store.filled [97, 98, 99] 1)
      (.ok (.data Status.OK [97, 98, 99])) (Store.filled [97, 98, 99] 1) :=
    (Held.runs_read 10 hf (by decide) le_rfl).map _
  obtain ⟨srv, n, hsrv, hn, -⟩ := Op.eval_wired 7 (fun _ ↦ default) (fun _ ↦ 9)
    (fun _ ↦ ⟨fun _ ↦ 0, fun _ ↦ 0, 3, 5, 1⟩) (n := ⟨d, fun _ ↦ false, 0⟩)
    (Op.always_prog fun _ ↦ (Held.always_read hf).map _) ⟨hs.rep, rfl⟩ (hrun.prog rfl)
  exact ⟨d, srv, n, hs.rep, hsrv, hn⟩

end Client
end Yfs
