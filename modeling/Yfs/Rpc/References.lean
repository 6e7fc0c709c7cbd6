import Yfs.Machine.Run
import Yfs.Rpc.Message
import Yfs.Rpc.Window

/-!
# References to connections

A connection is an object with a reference count.  When a PDU arrives on a connection,
`rpcs::got_pdu` takes a reference for it and queues a job, and some thread of the pool will run
`rpcs::dispatch` on the job and drop the reference in the end.  The server also keeps the latest
connection to each client, in `conns_`, and every entry there comes with a reference of its own.

Here a step is one access to what is shared: a reference count, the flag `reachable_`, the queue, a
critical section of `dispatch`.  The thread that runs `got_pdu` and the one that runs `dispatch` on
the job it has queued go on independently.  A connection may die at any time, and `reachable_` may
be set to anything at any time.

In a state that is `Balanced`, the count of each connection is what it was in the beginning, plus
one for each PDU that is being processed on it, plus one for each entry of `conns_`.  Three things
upset the balance, and nothing else does (`balanced_iff_careful`):

* `got_pdu` looks at `reachable_` once more after it has queued the job, and if the flag has been
  cleared in between it takes the job back, although it is too late for that;
* a request for an earlier instance of the server is answered, and the reference is not dropped;
* if the connection of a request has died, the reply goes out over the latest connection of the
  client, and for a request without a client nonce there is none: the pointer in `conns_` is null.
-/

set_option autoImplicit false

namespace Yfs
namespace Rpc
namespace References

open Machine Unmarshall

variable {Conn : Type}

/-! ## State -/

/-- What `dispatch` depends on, and what the connections do. -/
structure Config (Conn : Type) where
  /-- `nonce_`. -/
  nonce : UInt32
  /-- `procs_.count(proc) >= 1`. -/
  procs : Int32 → Bool
  /-- `a->compare(b) < 0`. -/
  older : Conn → Conn → Bool

/-- Where `got_pdu` is. -/
inductive Receiver where
  /-- The job has been made. -/
  | start
  /-- The reference has been taken. -/
  | took
  /-- `addObjJob` has returned. -/
  | added (succ : Bool)
  | done
  deriving DecidableEq, Repr

/-- Where `dispatch` is. -/
inductive Worker (Conn : Type) where
  /-- The job is not in the queue yet. -/
  | idle
  | queued
  /-- The job has been deleted. -/
  | start (c : Conn)
  /-- Before the latest connection is saved. -/
  | save (c : Conn) (h : ReqHeader)
  /-- Before `checkduplicate_and_update`. -/
  | check (c : Conn) (h : ReqHeader)
  /-- Before the handler is invoked. -/
  | call (c : Conn) (h : ReqHeader)
  /-- Before the latest connection is looked up. -/
  | latest (c : Conn) (h : ReqHeader)
  /-- Before the last `decref`. -/
  | drop (c : Conn)
  /-- A null pointer has been dereferenced. -/
  | null
  | done
  deriving DecidableEq

/-- A PDU that has arrived, and the job that has been made of it. -/
structure Pdu (Conn : Type) where
  conn : Conn
  buf : List UInt8
  size_lt : buf.length < 2 ^ 31
  receiver : Receiver := .start
  worker : Worker Conn := .idle
  /-- How often the job has been deleted. -/
  deleted : Nat := 0
  /-- How often the reference that was taken for the PDU has been dropped. -/
  dropped : Nat := 0

/-- The pointers in a `std::map`; they may be null. -/
abbrev Conns (Conn : Type) := OrderedMap (compare : UInt32 → UInt32 → Ordering) (Option Conn)

/-- The server, as far as references go. -/
structure State (Conn : Type) where
  refno : Conn → Int
  dead : Conn → Bool := fun _ ↦ false
  reachable : Bool := true
  conns : Conns Conn := OrderedMap.empty
  window : UInt32 → List Entry := fun _ ↦ []
  pdus : List (Pdu Conn) := []

/-! ## The code -/

/-- What a step does for a PDU: the `incref`s and `decref`s it makes, and what it leaves. -/
structure Effect (Conn : Type) where
  pdu : Pdu Conn
  refs : List (Conn × Int) := []
  conns : Conns Conn
  window : UInt32 → List Entry

section Code

variable [DecidableEq Conn]

/-- The change of the count of a connection. -/
def change (refs : List (Conn × Int)) (c : Conn) : Int :=
  (refs.map fun r ↦ if r.1 = c then r.2 else 0).sum

/-- The header that `unpack_req_header` finds, if it is there. -/
def Pdu.header (p : Pdu Conn) : Option ReqHeader :=
  match unpackReqHeader.eval exec { buf := p.buf, size_lt := p.size_lt } with
  | some (.ok h, req) => if req.ok then some h else none
  | _ => none

/-- `rpcs::got_pdu`, after the first look at `reachable_`. -/
def gotPdu (s : State Conn) (p : Pdu Conn) (succ : Bool) : Option (Effect Conn) :=
  match p.receiver with
  | .start => some { s with pdu := { p with receiver := .took }, refs := [(p.conn, 1)] }
  | .took =>
    some { s with
      pdu := { p with receiver := .added succ, worker := if succ then .queued else p.worker } }
  | .added succ =>
    if !succ || !s.reachable then
      some { s with
        pdu := { p with receiver := .done, deleted := p.deleted + 1, dropped := p.dropped + 1 }
        refs := [(p.conn, -1)] }
    else some { s with pdu := { p with receiver := .done } }
  | .done => none

/-- `conns_[n]`: a key that is not there is inserted. -/
def index (conns : Conns Conn) (n : UInt32) : Option Conn × Conns Conn :=
  match conns.get? n with
  | some o => (o, conns)
  | none => (none, conns.insert (n, none))

/-- `rpcs::dispatch`, from one access to the next. -/
def dispatch (cfg : Config Conn) (s : State Conn) (p : Pdu Conn) (reply : Reply) :
    Option (Effect Conn) :=
  let goto (w : Worker Conn) : Effect Conn := { s with pdu := { p with worker := w } }
  match p.worker with
  | .idle => none
  | .queued =>
    -- A job that has been deleted is not there any more.
    if p.deleted = 0 then
      some { s with pdu := { p with worker := .start p.conn, deleted := p.deleted + 1 } }
    else none
  | .start c =>
    match p.header with
    | none =>
      some { s with pdu := { p with worker := .done, dropped := p.dropped + 1 }, refs := [(c, -1)] }
    | some h =>
      if h.srvNonce ≠ 0 ∧ h.srvNonce ≠ cfg.nonce then some (goto .done)
      -- `VERIFY(0)`
      else if cfg.procs h.proc = false then none
      else if h.cltNonce ≠ 0 then some (goto (.save c h))
      else some (goto (.call c h))
  | .save c h =>
    match s.conns.get? h.cltNonce with
    | none =>
      some { goto (.check c h) with
        refs := [(c, 1)], conns := s.conns.insert (h.cltNonce, some c) }
    | some none => some (goto .null)
    | some (some old) =>
      if cfg.older old c then
        some { goto (.check c h) with
          refs := [(old, -1), (c, 1)], conns := s.conns.insert (h.cltNonce, some c) }
      else some (goto (.check c h))
  | .check c h =>
    let r := checkduplicateAndUpdate (s.window h.cltNonce) h.xid.toUInt32.toNat
      h.xidRep.toUInt32.toNat
    let w : Worker Conn :=
      match r.1 with
      | .new => .call c h
      | .inProgress | .done _ | .forgotten => .drop c
    some { goto w with window := Function.update s.window h.cltNonce r.2 }
  | .call c h =>
    if h.cltNonce > 0 then
      some { goto (.latest c h) with
        window := Function.update s.window h.cltNonce
          (addReply (s.window h.cltNonce) h.xid.toUInt32.toNat reply) }
    else some (goto (.latest c h))
  | .latest c h =>
    if s.dead c then
      let r := index s.conns h.cltNonce
      if r.1 = some c then some { goto (.drop c) with conns := r.2 }
      else
        match r.1 with
        | none => some { goto .null with refs := [(c, -1)], conns := r.2 }
        | some c' => some { goto (.drop c') with refs := [(c, -1), (c', 1)], conns := r.2 }
    else some (goto (.drop c))
  | .drop c =>
    some { s with pdu := { p with worker := .done, dropped := p.dropped + 1 }, refs := [(c, -1)] }
  | .null => none
  | .done => none

/-! ## Steps -/

/-- What can happen. -/
inductive Event (Conn : Type) where
  /-- A PDU arrives, and `got_pdu` looks at `reachable_`. -/
  | receive (c : Conn) (b : List UInt8)
  /-- `got_pdu` goes on with a PDU; `succ` is what `addObjJob` returns, if it is called. -/
  | gotPdu (i : Nat) (succ : Bool)
  /-- `dispatch` goes on with a PDU; `reply` is what the handler returns, if it is invoked. -/
  | dispatch (i : Nat) (reply : Reply)
  | die (c : Conn)
  | setReachable (r : Bool)

/-- The state after a step for a PDU. -/
def State.put (s : State Conn) (i : Nat) (e : Effect Conn) : State Conn :=
  { s with
    refno := fun c ↦ s.refno c + change e.refs c
    conns := e.conns
    window := e.window
    pdus := s.pdus.set i e.pdu }

/-- A step of the server. -/
def step (cfg : Config Conn) (s : State Conn) : Event Conn → Option (State Conn)
  | .receive c b =>
    if hb : b.length < 2 ^ 31 then
      if s.reachable then some { s with pdus := s.pdus ++ [{ conn := c, buf := b, size_lt := hb }] }
      else some s
    else none
  | .gotPdu i succ => (s.pdus[i]?).bind fun p ↦ (gotPdu s p succ).map (s.put i)
  | .dispatch i reply => (s.pdus[i]?).bind fun p ↦ (dispatch cfg s p reply).map (s.put i)
  | .die c => some { s with dead := Function.update s.dead c true }
  | .setReachable r => some { s with reachable := r }

end Code

/-! ## The balance -/

/-- The connection to which a PDU has a reference. -/
def Pdu.holder (p : Pdu Conn) : Option Conn :=
  match p.worker with
  | .idle =>
    match p.receiver with
    | .took | .added false => some p.conn
    | _ => none
  | .queued => some p.conn
  | .start c | .save c _ | .check c _ | .call c _ | .latest c _ | .drop c => some c
  | .null | .done => none

/-- Nothing will be done with the PDU any more. -/
def Pdu.over (p : Pdu Conn) : Bool :=
  match p.worker, p.receiver with
  | .done, _ => true
  | .idle, .done => true
  | _, _ => false

/-- `got_pdu` has queued the job. -/
def Pdu.Handed (p : Pdu Conn) : Prop := p.receiver = .added true ∨ p.receiver = .done

/-- What is true of a PDU wherever it is. -/
def Pdu.Ok (conns : Conns Conn) (p : Pdu Conn) : Prop :=
  match p.worker with
  | .idle =>
    (p.receiver = .done ∧ p.deleted = 1 ∧ p.dropped = 1) ∨
      (p.receiver ≠ .done ∧ p.receiver ≠ .added true ∧ p.deleted = 0 ∧ p.dropped = 0)
  | .queued => p.Handed ∧ p.deleted = 0 ∧ p.dropped = 0
  | .start _ | .drop _ => p.Handed ∧ p.deleted = 1 ∧ p.dropped = 0
  | .save _ h => p.Handed ∧ p.deleted = 1 ∧ p.dropped = 0 ∧ h.cltNonce ≠ 0
  | .check _ h | .call _ h | .latest _ h =>
    p.Handed ∧ p.deleted = 1 ∧ p.dropped = 0 ∧ (h.cltNonce ≠ 0 → (conns.get? h.cltNonce).isSome)
  | .null => False
  | .done => p.Handed ∧ p.deleted = 1 ∧ p.dropped = 1

theorem Pdu.Ok.once {conns : Conns Conn} {p : Pdu Conn} (h : p.Ok conns) :
    p.dropped = if p.over then 1 else 0 := by
  unfold Pdu.Ok at h
  unfold Pdu.over
  split at h <;> rename_i hw <;> simp only [hw]
  · rcases h with ⟨hr, -, hd⟩ | ⟨hr, -, -, hd⟩
    · simp [hr, hd]
    · cases hrec : p.receiver <;> simp_all
  all_goals first | exact h.2.2 | exact h.2.2.1 | exact h.elim

theorem Pdu.Ok.jobs {conns : Conns Conn} {p : Pdu Conn} (h : p.Ok conns) :
    p.deleted ≤ 1 ∧ (p.worker = .queued → p.deleted = 0) := by
  unfold Pdu.Ok at h
  split at h <;> rename_i hw
  · rcases h with ⟨-, hd, -⟩ | ⟨-, -, hd, -⟩ <;> simp [hd, hw]
  all_goals first | exact h.elim | simp [h.2.1, hw]

theorem Pdu.Ok.notNull {conns : Conns Conn} {p : Pdu Conn} (h : p.Ok conns) : p.worker ≠ .null := by
  intro hw
  rw [Pdu.Ok, hw] at h
  exact h

/-- Connections that are saved for other clients do not matter. -/
theorem Pdu.Ok.mono {conns conns' : Conns Conn} {p : Pdu Conn} (h : p.Ok conns)
    (hmono : ∀ n, (conns.get? n).isSome → (conns'.get? n).isSome) : p.Ok conns' := by
  unfold Pdu.Ok at h ⊢
  split <;> rename_i hw <;> simp only [hw] at h
  all_goals first | exact h | exact ⟨h.1, h.2.1, h.2.2.1, fun hn ↦ hmono _ (h.2.2.2 hn)⟩

/-- What has not been queued is not being processed. -/
theorem Pdu.Ok.idle {conns : Conns Conn} {p : Pdu Conn} (h : p.Ok conns) (hr : ¬ p.Handed) :
    p.worker = .idle ∧ p.deleted = 0 ∧ p.dropped = 0 := by
  unfold Pdu.Ok at h
  split at h
  case h_1 hw =>
    rcases h with ⟨hdone, -⟩ | ⟨-, -, hd⟩
    · exact absurd (Or.inr hdone) hr
    · exact ⟨hw, hd⟩
  all_goals first | exact absurd h.1 hr | exact h.elim

/-- After the job has been queued, what `got_pdu` does makes no difference to it. -/
theorem Pdu.Ok.finish {conns : Conns Conn} {p : Pdu Conn} (h : p.Ok conns)
    (hr : p.receiver = .added true) :
    ({ p with receiver := .done } : Pdu Conn).Ok conns ∧
      ({ p with receiver := .done } : Pdu Conn).holder = p.holder := by
  unfold Pdu.Ok at h ⊢
  unfold Pdu.holder
  have hdone : ({ p with receiver := .done } : Pdu Conn).Handed := Or.inr rfl
  split at h <;> rename_i hw <;> simp only [hw]
  · rcases h with ⟨hdone, -⟩ | ⟨-, hne, -⟩
    · exact absurd (hr.symm.trans hdone) (by simp)
    · exact absurd hr hne
  all_goals first | exact h.elim | exact ⟨⟨hdone, h.2⟩, trivial⟩

theorem sum_set {l : List (Pdu Conn)} {i : Nat} {p : Pdu Conn} (h : l[i]? = some p)
    (f : Pdu Conn → Int) (p' : Pdu Conn) :
    ((l.set i p').map f).sum = (l.map f).sum - f p + f p' := by
  induction l generalizing i with
  | nil => exact absurd h (by simp)
  | cons q l ih =>
    cases i with
    | zero =>
      obtain rfl : q = p := by simpa using h
      simp only [List.set_cons_zero, List.map_cons, List.sum_cons]
      omega
    | succ i =>
      have hl := ih (i := i) (by simpa using h)
      simp only [List.set_cons_succ, List.map_cons, List.sum_cons, hl]
      omega

theorem get?_insert (conns : Conns Conn) (n : UInt32) (o : Option Conn) :
    (conns.insert (n, o)).get? n = some o :=
  lookup_assign_self n o conns.entries

section Balance

variable [DecidableEq Conn]

/-- One, if a pointer is to this connection. -/
def account (c : Conn) (o : Option Conn) : Int := if o = some c then 1 else 0

/-- Every reference is accounted for. -/
structure Balanced (base : Conn → Int) (s : State Conn) : Prop where
  /-- One for each PDU in progress, and one for each entry of `conns_`. -/
  refs : ∀ c, s.refno c =
    base c + (s.pdus.map fun p ↦ account c p.holder).sum + s.conns.total (account c)
  /-- An entry of `conns_` is a connection. -/
  entries : ∀ e ∈ s.conns.entries, e.2 ≠ none
  /-- The reference for a PDU is dropped once, and then it is over. -/
  once : ∀ p ∈ s.pdus, p.dropped = if p.over then 1 else 0
  /-- A job is deleted once, and not while it is in the queue. -/
  jobs : ∀ p ∈ s.pdus, p.deleted ≤ 1 ∧ (p.worker = .queued → p.deleted = 0)
  /-- No null pointer has been dereferenced. -/
  notNull : ∀ p ∈ s.pdus, p.worker ≠ .null

/-- What has to be avoided: that `reachable_` has been cleared when `got_pdu` looks at it after it
has queued the job; that a request is for another instance of the server; that the connection of a
request without a client nonce has died when the reply is to be sent. -/
def careful (cfg : Config Conn) (s : State Conn) : Event Conn → Bool
  | .gotPdu i _ =>
    match s.pdus[i]? with
    | some p => p.receiver != .added true || s.reachable
    | none => true
  | .dispatch i _ =>
    match s.pdus[i]? with
    | some p =>
      match p.worker with
      | .start _ =>
        match p.header with
        | some h => h.srvNonce == 0 || h.srvNonce == cfg.nonce
        | none => true
      | .latest c h => h.cltNonce != 0 || !s.dead c
      | _ => true
    | none => true
  | _ => true

/-! ## What a step keeps -/

/-- The invariant. -/
structure Inv (base : Conn → Int) (s : State Conn) : Prop where
  refs : ∀ c, s.refno c =
    base c + (s.pdus.map fun p ↦ account c p.holder).sum + s.conns.total (account c)
  entries : ∀ e ∈ s.conns.entries, e.1 ≠ 0 ∧ e.2 ≠ none
  ok : ∀ p ∈ s.pdus, p.Ok s.conns

theorem Inv.balanced {base : Conn → Int} {s : State Conn} (h : Inv base s) : Balanced base s where
  refs := h.refs
  entries e he := (h.entries e he).2
  once p hp := (h.ok p hp).once
  jobs p hp := (h.ok p hp).jobs
  notNull p hp := (h.ok p hp).notNull

theorem inv_init (base : Conn → Int) : Inv base { refno := base } where
  refs c := by simp [OrderedMap.total, OrderedMap.empty]
  entries e he := absurd he List.not_mem_nil
  ok p hp := absurd hp List.not_mem_nil

/-- A step that balances its own account. -/
structure Even (s : State Conn) (p : Pdu Conn) (e : Effect Conn) : Prop where
  refs : ∀ c, change e.refs c =
    account c e.pdu.holder - account c p.holder +
      (e.conns.total (account c) - s.conns.total (account c))
  entries : ∀ x ∈ e.conns.entries, x.1 ≠ 0 ∧ x.2 ≠ none
  mono : ∀ n, (s.conns.get? n).isSome → (e.conns.get? n).isSome
  ok : e.pdu.Ok e.conns

theorem Inv.put {base : Conn → Int} {s : State Conn} {i : Nat} {p : Pdu Conn} {e : Effect Conn}
    (h : Inv base s) (hp : s.pdus[i]? = some p) (he : Even s p e) : Inv base (s.put i e) where
  refs c := by
    have hs := h.refs c
    have hc := he.refs c
    have hsum := sum_set hp (fun p ↦ account c p.holder) e.pdu
    simp only [State.put, hsum, hs, hc]
    omega
  entries := he.entries
  ok q hq := by
    rcases List.mem_or_eq_of_mem_set hq with hq | rfl
    · exact (h.ok q hq).mono he.mono
    · exact he.ok

@[simp] theorem account_none (c : Conn) : account c none = 0 := by
  simp [account]

theorem change_nil (c : Conn) : change [] c = 0 := rfl

theorem change_one (a : Conn) (d : Int) (c : Conn) :
    change [(a, d)] c = d * account c (some a) := by
  simp [change, account]

theorem change_two (a b : Conn) (d d' : Int) (c : Conn) :
    change [(a, d), (b, d')] c = d * account c (some a) + d' * account c (some b) := by
  simp [change, account]

/-- A step that leaves `conns_` alone. -/
theorem Inv.even {base : Conn → Int} {s : State Conn} {p : Pdu Conn} {e : Effect Conn}
    (h : Inv base s) (hconns : e.conns = s.conns)
    (hrefs : ∀ c, change e.refs c = account c e.pdu.holder - account c p.holder)
    (hok : e.pdu.Ok s.conns) : Even s p e where
  refs c := by
    rw [hrefs, hconns]
    omega
  entries := hconns ▸ h.entries
  mono n hn := hconns ▸ hn
  ok := hconns ▸ hok

theorem Inv.gotPdu {base : Conn → Int} {s : State Conn} {i : Nat} {p : Pdu Conn} {succ : Bool}
    {e : Effect Conn} (h : Inv base s) (hp : s.pdus[i]? = some p)
    (hcareful : p.receiver = .added true → s.reachable = true)
    (he : References.gotPdu s p succ = some e) : Even s p e := by
  have hok := h.ok p (List.mem_of_getElem? hp)
  unfold References.gotPdu at he
  split at he
  case h_1 hr =>
    obtain ⟨hw, hdel, hdrop⟩ := hok.idle (by simp [Pdu.Handed, hr])
    obtain rfl := Option.some_inj.1 he
    refine h.even rfl (fun c ↦ ?_) ?_
    · simp [change_one, Pdu.holder, hw, hr]
    · simp [Pdu.Ok, hw, hdel, hdrop]
  case h_2 hr =>
    obtain ⟨hw, hdel, hdrop⟩ := hok.idle (by simp [Pdu.Handed, hr])
    obtain rfl := Option.some_inj.1 he
    refine h.even rfl (fun c ↦ ?_) ?_
    · cases succ <;> simp [change_nil, Pdu.holder, hw, hr]
    · cases succ <;> simp [Pdu.Ok, Pdu.Handed, hw, hdel, hdrop]
  case h_3 succ' hr =>
    cases succ' with
    | false =>
      obtain ⟨hw, hdel, hdrop⟩ := hok.idle (by simp [Pdu.Handed, hr])
      rw [if_pos (by simp)] at he
      obtain rfl := Option.some_inj.1 he
      refine h.even rfl (fun c ↦ ?_) ?_
      · simp [change_one, Pdu.holder, hw, hr]
      · simp [Pdu.Ok, hw, hdel, hdrop]
    | true =>
      rw [if_neg (by simp [hcareful hr])] at he
      obtain rfl := Option.some_inj.1 he
      obtain ⟨hok', hholder⟩ := hok.finish hr
      refine h.even rfl (fun c ↦ ?_) hok'
      rw [hholder, change_nil, Int.sub_self]
  case h_4 => exact absurd he (by simp)

/-- A connection is saved, and its reference with it. -/
theorem Inv.save {base : Conn → Int} {s : State Conn} {p : Pdu Conn} {e : Effect Conn} {n : UInt32}
    {c : Conn} (h : Inv base s) (hn : n ≠ 0) (hconns : e.conns = s.conns.insert (n, some c))
    (hrefs : ∀ a, change e.refs a =
      account a (some c) - ((s.conns.get? n).map (account a)).getD 0)
    (hholder : e.pdu.holder = p.holder) (hok : e.pdu.Ok e.conns) : Even s p e where
  refs a := by
    have htotal := s.conns.total_insert (n, some c) (account a)
    dsimp only at htotal
    rw [hrefs, hholder, hconns, htotal]
    omega
  entries x hx := by
    rw [hconns] at hx
    constructor
    · rcases mem_assign hx with hkey | ⟨q, hq, hkey⟩
      · exact hkey ▸ hn
      · exact hkey ▸ (h.entries q hq).1
    · rcases snd_of_mem_assign hx with hval | hx
      · simp [hval]
      · exact (h.entries x hx).2
  mono n' hn' := hconns ▸ isSome_lookup_assign hn'
  ok := hok

theorem Inv.ne_none {base : Conn → Int} {s : State Conn} (h : Inv base s) {n : UInt32}
    {o : Option Conn} (ho : s.conns.get? n = some o) : n ≠ 0 ∧ o ≠ none := by
  obtain ⟨q, hq, hkey, rfl⟩ := exists_of_lookup ho
  rw [← Std.LawfulEqCmp.eq_of_compare hkey]
  exact h.entries q hq

section Dispatch

variable {base : Conn → Int} {cfg : Config Conn} {s : State Conn} {i : Nat} {p : Pdu Conn}
  {reply : Reply} {e : Effect Conn} {c : Conn} {req : ReqHeader}

theorem Inv.dispatch_start (h : Inv base s) (hok : p.Ok s.conns) (hw : p.worker = .start c)
    (hcareful : ∀ req, p.header = some req → req.srvNonce = 0 ∨ req.srvNonce = cfg.nonce)
    (he : dispatch cfg s p reply = some e) : Even s p e := by
  rw [Pdu.Ok, hw] at hok
  obtain ⟨hr, hdel, hdrop⟩ := hok
  simp only [dispatch, hw] at he
  cases hh : p.header with
  | none =>
    simp only [hh] at he
    obtain rfl := Option.some_inj.1 he
    refine h.even rfl (fun a ↦ ?_) ⟨hr, hdel, by simp [hdrop]⟩
    simp [change_one, Pdu.holder, hw]
  | some req =>
    have hcur : ¬ (req.srvNonce ≠ 0 ∧ req.srvNonce ≠ cfg.nonce) := by
      rcases hcareful req hh with heq | heq <;> simp [heq]
    simp only [hh, if_neg hcur] at he
    split at he
    · exact absurd he (by simp)
    split at he
    · rename_i hn
      obtain rfl := Option.some_inj.1 he
      refine h.even rfl (fun a ↦ ?_) ⟨hr, hdel, hdrop, hn⟩
      simp [change_nil, Pdu.holder, hw]
    · rename_i hn
      obtain rfl := Option.some_inj.1 he
      refine h.even rfl (fun a ↦ ?_) ⟨hr, hdel, hdrop, fun hne ↦ absurd hne hn⟩
      simp [change_nil, Pdu.holder, hw]

theorem Inv.dispatch_save (h : Inv base s) (hok : p.Ok s.conns) (hw : p.worker = .save c req)
    (he : dispatch cfg s p reply = some e) : Even s p e := by
  rw [Pdu.Ok, hw] at hok
  obtain ⟨hr, hdel, hdrop, hn⟩ := hok
  simp only [dispatch, hw] at he
  split at he
  · rename_i hget
    obtain rfl := Option.some_inj.1 he
    refine h.save hn rfl (fun a ↦ ?_) (by simp [Pdu.holder, hw])
      ⟨hr, hdel, hdrop, fun _ ↦ by simp [get?_insert]⟩
    simp [change_one, hget]
  · rename_i hget
    exact absurd rfl (h.ne_none hget).2
  · rename_i old hget
    split at he
    · obtain rfl := Option.some_inj.1 he
      refine h.save hn rfl (fun a ↦ ?_) (by simp [Pdu.holder, hw])
        ⟨hr, hdel, hdrop, fun _ ↦ by simp [get?_insert]⟩
      simp only [change_two, hget, Option.map_some, Option.getD_some]
      omega
    · obtain rfl := Option.some_inj.1 he
      refine h.even rfl (fun a ↦ ?_) ⟨hr, hdel, hdrop, fun _ ↦ by simp [hget]⟩
      simp [change_nil, Pdu.holder, hw]

theorem Inv.dispatch_latest (h : Inv base s) (hok : p.Ok s.conns) (hw : p.worker = .latest c req)
    (hcareful : req.cltNonce ≠ 0 ∨ s.dead c = false) (he : dispatch cfg s p reply = some e) :
    Even s p e := by
  rw [Pdu.Ok, hw] at hok
  obtain ⟨hr, hdel, hdrop, hknown⟩ := hok
  simp only [dispatch, hw] at he
  split at he
  · rename_i hdead
    have hn : req.cltNonce ≠ 0 := hcareful.resolve_right (by simp [hdead])
    obtain ⟨o, hget⟩ := Option.isSome_iff_exists.1 (hknown hn)
    have hindex : index s.conns req.cltNonce = (o, s.conns) := by rw [index, hget]
    obtain ⟨c', rfl⟩ := Option.ne_none_iff_exists'.1 (h.ne_none hget).2
    rw [hindex] at he
    dsimp only at he
    split at he
    · obtain rfl := Option.some_inj.1 he
      refine h.even rfl (fun a ↦ ?_) ⟨hr, hdel, hdrop⟩
      simp [change_nil, Pdu.holder, hw]
    · obtain rfl := Option.some_inj.1 he
      refine h.even rfl (fun a ↦ ?_) ⟨hr, hdel, hdrop⟩
      simp only [change_two, Pdu.holder, hw]
      omega
  · obtain rfl := Option.some_inj.1 he
    refine h.even rfl (fun a ↦ ?_) ⟨hr, hdel, hdrop⟩
    simp [change_nil, Pdu.holder, hw]

theorem Inv.dispatch (h : Inv base s) (hp : s.pdus[i]? = some p)
    (hcareful : careful cfg s (.dispatch i reply) = true)
    (he : References.dispatch cfg s p reply = some e) : Even s p e := by
  have hok := h.ok p (List.mem_of_getElem? hp)
  simp only [careful, hp] at hcareful
  cases hw : p.worker with
  | idle => exact absurd he (by simp [References.dispatch, hw])
  | queued =>
    rw [Pdu.Ok, hw] at hok
    obtain ⟨hr, hdel, hdrop⟩ := hok
    simp only [References.dispatch, hw, if_pos hdel] at he
    obtain rfl := Option.some_inj.1 he
    refine h.even rfl (fun a ↦ ?_) ⟨hr, by simp [hdel], hdrop⟩
    simp [change_nil, Pdu.holder, hw]
  | start c =>
    simp only [hw] at hcareful
    refine h.dispatch_start hok hw (fun req hh ↦ ?_) he
    simpa [hh] using hcareful
  | save c req => exact h.dispatch_save hok hw he
  | check c req =>
    rw [Pdu.Ok, hw] at hok
    obtain ⟨hr, hdel, hdrop, hknown⟩ := hok
    simp only [References.dispatch, hw] at he
    obtain rfl := Option.some_inj.1 he
    split
    · refine h.even rfl (fun a ↦ ?_) ⟨hr, hdel, hdrop, hknown⟩
      simp [change_nil, Pdu.holder, hw]
    all_goals
      refine h.even rfl (fun a ↦ ?_) ⟨hr, hdel, hdrop⟩
      simp [change_nil, Pdu.holder, hw]
  | call c req =>
    rw [Pdu.Ok, hw] at hok
    obtain ⟨hr, hdel, hdrop, hknown⟩ := hok
    simp only [References.dispatch, hw] at he
    split at he
    all_goals
      obtain rfl := Option.some_inj.1 he
      refine h.even rfl (fun a ↦ ?_) ⟨hr, hdel, hdrop, hknown⟩
      simp [change_nil, Pdu.holder, hw]
  | latest c req =>
    simp only [hw] at hcareful
    exact h.dispatch_latest hok hw (by simpa using hcareful) he
  | drop c =>
    rw [Pdu.Ok, hw] at hok
    obtain ⟨hr, hdel, hdrop⟩ := hok
    simp only [References.dispatch, hw] at he
    obtain rfl := Option.some_inj.1 he
    refine h.even rfl (fun a ↦ ?_) ⟨hr, hdel, by simp [hdrop]⟩
    simp [change_one, Pdu.holder, hw]
  | null => exact absurd he (by simp [References.dispatch, hw])
  | done => exact absurd he (by simp [References.dispatch, hw])

end Dispatch

/-! ## Runs -/

section Runs

variable {base : Conn → Int} {cfg : Config Conn} {s s' : State Conn} {ev : Event Conn}

theorem step_gotPdu {i : Nat} {succ : Bool} (hs : step cfg s (.gotPdu i succ) = some s') :
    ∃ p e, s.pdus[i]? = some p ∧ References.gotPdu s p succ = some e ∧ s' = s.put i e := by
  obtain ⟨p, hp, hs⟩ := Option.bind_eq_some_iff.1 hs
  obtain ⟨e, he, rfl⟩ := Option.map_eq_some_iff.1 hs
  exact ⟨p, e, hp, he, rfl⟩

theorem step_dispatch {i : Nat} {reply : Reply} (hs : step cfg s (.dispatch i reply) = some s') :
    ∃ p e, s.pdus[i]? = some p ∧ References.dispatch cfg s p reply = some e ∧ s' = s.put i e := by
  obtain ⟨p, hp, hs⟩ := Option.bind_eq_some_iff.1 hs
  obtain ⟨e, he, rfl⟩ := Option.map_eq_some_iff.1 hs
  exact ⟨p, e, hp, he, rfl⟩

/-- A careful step keeps the balance. -/
theorem Inv.step (h : Inv base s) (hcareful : careful cfg s ev = true)
    (hs : References.step cfg s ev = some s') : Inv base s' := by
  cases ev with
  | receive c b =>
    simp only [References.step] at hs
    split at hs
    · split at hs
      · obtain rfl := Option.some_inj.1 hs
        refine ⟨fun a ↦ ?_, h.entries, fun p hp ↦ ?_⟩
        · simp [h.refs a, Pdu.holder]
        · rcases List.mem_append.1 hp with hp | hp
          · exact h.ok p hp
          · rw [List.mem_singleton.1 hp]
            simp [Pdu.Ok]
      · obtain rfl := Option.some_inj.1 hs
        exact h
    · exact absurd hs (by simp)
  | gotPdu i succ =>
    obtain ⟨p, e, hp, he, rfl⟩ := step_gotPdu hs
    refine h.put hp (h.gotPdu hp (fun hr ↦ ?_) he)
    simpa [careful, hp, hr] using hcareful
  | dispatch i reply =>
    obtain ⟨p, e, hp, he, rfl⟩ := step_dispatch hs
    exact h.put hp (h.dispatch hp hcareful he)
  | die c =>
    obtain rfl := Option.some_inj.1 hs
    exact ⟨h.refs, h.entries, h.ok⟩
  | setReachable r =>
    obtain rfl := Option.some_inj.1 hs
    exact ⟨h.refs, h.entries, h.ok⟩

/-- If the balance is kept, the step has made as many references as it needs. -/
theorem Inv.change_eq {i : Nat} {p : Pdu Conn} {e : Effect Conn} (h : Inv base s)
    (hp : s.pdus[i]? = some p) (hb : Balanced base (s.put i e)) (c : Conn) :
    change e.refs c = account c e.pdu.holder - account c p.holder +
      (e.conns.total (account c) - s.conns.total (account c)) := by
  have hs := h.refs c
  have hs' := hb.refs c
  have hsum := sum_set hp (fun p ↦ account c p.holder) e.pdu
  simp only [State.put, hsum, hs] at hs'
  omega

/-- Every step that is not careful upsets the balance. -/
theorem Inv.careful_of_balanced (h : Inv base s) (hs : References.step cfg s ev = some s')
    (hb : Balanced base s') : careful cfg s ev = true := by
  cases ev with
  | receive c b => rfl
  | die c => rfl
  | setReachable r => rfl
  | gotPdu i succ =>
    obtain ⟨p, e, hp, he, rfl⟩ := step_gotPdu hs
    simp only [careful, hp]
    by_contra hnot
    obtain ⟨hr, hreach⟩ : p.receiver = .added true ∧ s.reachable = false := by simpa using hnot
    obtain ⟨-, hholder⟩ := (h.ok p (List.mem_of_getElem? hp)).finish hr
    have hchange := h.change_eq hp hb p.conn
    simp only [References.gotPdu, hr, hreach, Bool.not_false, Bool.or_true, if_true] at he
    obtain rfl := Option.some_inj.1 he
    simp only [change_one] at hchange
    rw [show ({ p with receiver := .done, deleted := p.deleted + 1, dropped := p.dropped + 1 } :
      Pdu Conn).holder = p.holder from hholder] at hchange
    simp [account] at hchange
  | dispatch i reply =>
    obtain ⟨p, e, hp, he, rfl⟩ := step_dispatch hs
    simp only [careful, hp]
    split
    · rename_i c hw
      split
      · rename_i req hh
        by_contra hnot
        have hstale : req.srvNonce ≠ 0 ∧ req.srvNonce ≠ cfg.nonce := by simpa using hnot
        have hchange := h.change_eq hp hb c
        simp only [References.dispatch, hw, hh, if_pos hstale] at he
        obtain rfl := Option.some_inj.1 he
        simp [change_nil, Pdu.holder, hw, account] at hchange
      · rfl
    · rename_i c req hw
      by_contra hnot
      obtain ⟨hn, hdead⟩ : req.cltNonce = 0 ∧ s.dead c = true := by simpa using hnot
      have hindex : index s.conns req.cltNonce = (none, s.conns.insert (req.cltNonce, none)) := by
        rw [index]
        split
        · rename_i o hget
          exact absurd hn (h.ne_none hget).1
        · rfl
      simp only [References.dispatch, hw, hdead, hindex] at he
      obtain rfl := Option.some_inj.1 he
      have hlt : i < s.pdus.length := (List.getElem?_eq_some_iff.1 hp).1
      exact hb.notNull _ (List.mem_set hlt _) rfl
    · rfl

/-- **References balance**, in every state of a run, if and only if every step is careful. -/
theorem balanced_iff_careful (cfg : Config Conn) (base : Conn → Int) (run : List (Event Conn))
    (s : State Conn) (hrun : run.foldlM (References.step cfg) { refno := base } = some s) :
    Along (References.step cfg) (fun s ev ↦ ∀ s', References.step cfg s ev = some s' →
      Balanced base s')
        { refno := base } run ↔
      Along (References.step cfg) (fun s ev ↦ careful cfg s ev = true) { refno := base } run := by
  refine along_congr ?_ ?_ run _ s (inv_init base) hrun
  · intro s ev s' h hcareful hs
    exact h.step hcareful hs
  · intro s ev s' h hs
    constructor
    · intro hb
      exact h.careful_of_balanced hs (hb s' hs)
    · intro hcareful s₁ hs₁
      exact (h.step hcareful hs₁).balanced

end Runs

end Balance

/-! ## Some runs -/

/-- A server with nonce 7, and two connections of which the second is the newer one. -/
def sampleConfig : Config (Fin 2) where
  nonce := 7
  procs _ := true
  older a b := a < b

/-- A request without arguments. -/
def samplePdu (xid cltNonce srvNonce : UInt8) : List UInt8 :=
  [0, 0, 0, 24, 0, 0, 0, xid, 0, 0, 0, 1, 0, 0, 0, cltNonce, 0, 0, 0, srvNonce, 0, 0, 0, 0]

/-- `got_pdu` gets through. -/
def arrival (i : Nat) (c : Fin 2) (b : List UInt8) : List (Event (Fin 2)) :=
  [.receive c b, .gotPdu i true, .gotPdu i true, .gotPdu i true]

/-- `dispatch` makes some steps. -/
def progress (i n : Nat) : List (Event (Fin 2)) := List.replicate n (.dispatch i ⟨0, 0, []⟩)

/-- A client sends two requests, the second one over a new connection, and the old connection dies
before the first request is answered. -/
def reconnected : List (Event (Fin 2)) :=
  arrival 0 ⟨0, Nat.two_pos⟩ (samplePdu 1 5 7) ++ progress 0 5 ++
    arrival 1 ⟨1, Nat.one_lt_two⟩ (samplePdu 2 5 7) ++ progress 1 3 ++
    [.die ⟨0, Nat.two_pos⟩] ++ progress 0 2 ++ progress 1 4

theorem reconnected_runs :
    ∃ s, reconnected.foldlM (step sampleConfig) { refno := fun _ ↦ 1 } = some s := ⟨_, rfl⟩

theorem balanced_reconnected :
    Along (step sampleConfig)
      (fun s ev ↦ ∀ s', step sampleConfig s ev = some s' → Balanced (fun _ ↦ 1) s')
      { refno := fun _ ↦ 1 } reconnected := by
  obtain ⟨s, hrun⟩ := reconnected_runs
  exact (balanced_iff_careful sampleConfig (fun _ ↦ 1) reconnected s hrun).2 (by decide +kernel)

/-- A reference has been dropped too often or not at all, or a null pointer has been
dereferenced. -/
def State.upset (s : State (Fin 2)) : Bool :=
  s.pdus.any fun p ↦ (p.dropped != if p.over then 1 else 0) || p.worker == .null

theorem State.upset_eq_false {base : Fin 2 → Int} {s : State (Fin 2)} (h : Balanced base s) :
    s.upset = false := by
  rw [State.upset, List.any_eq_false]
  intro p hp
  simp [h.once p hp, h.notNull p hp]

theorem exists_not_balanced {run : List (Event (Fin 2))}
    (h : (run.foldlM (step sampleConfig) { refno := fun _ ↦ 1 }).any State.upset = true) :
    ∃ s, run.foldlM (step sampleConfig) { refno := fun _ ↦ 1 } = some s ∧
      ¬ Balanced (fun _ ↦ 1) s := by
  cases hrun : run.foldlM (step sampleConfig) { refno := fun _ ↦ 1 } with
  | none =>
    rw [hrun] at h
    exact absurd h (by simp)
  | some s =>
    rw [hrun] at h
    exact ⟨s, rfl, fun hb ↦ absurd (State.upset_eq_false hb) (by simpa using h)⟩

/-- **Three runs that upset the balance**: a request for an earlier instance of the server, a server
that becomes unreachable while a job is being queued, and a request without a client nonce whose
connection dies. -/
theorem references_unbalanced :
    (∃ s, (arrival 0 0 (samplePdu 1 5 9) ++ progress 0 2).foldlM (step sampleConfig)
        { refno := fun _ ↦ 1 } = some s ∧ ¬ Balanced (fun _ ↦ 1) s) ∧
      (∃ s, [Event.receive 0 (samplePdu 1 5 7), .gotPdu 0 true, .gotPdu 0 true, .setReachable false,
          .gotPdu 0 true].foldlM (step sampleConfig) { refno := fun _ ↦ 1 } = some s ∧
        ¬ Balanced (fun _ ↦ 1) s) ∧
      ∃ s, (arrival 0 0 (samplePdu 1 0 7) ++ progress 0 3 ++ [Event.die 0] ++ progress 0 1).foldlM
          (step sampleConfig) { refno := fun _ ↦ 1 } = some s ∧ ¬ Balanced (fun _ ↦ 1) s :=
  ⟨exists_not_balanced (by decide +kernel), exists_not_balanced (by decide +kernel),
    exists_not_balanced (by decide +kernel)⟩

end References
end Rpc
end Yfs
