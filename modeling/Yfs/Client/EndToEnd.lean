import Yfs.Machine.Refine
import Yfs.Extent.Limits
import Yfs.Client.Alone

/-!
# Operations that go all the way to the disk

In the other files about clients the extent server is a map of files.  Here it is the server itself:
a `Node` is a disk and the locks, and an RPC is executed by `extent_server` on that disk, with the
time and the memory contents that it finds (`Node.step`).

An operation does the same on both (`Op.eval_node`), as long as it stays within what the server
promises: the inodes that it uses exist, and what it writes fits.  The answers differ only in the
time stamps, and no operation looks at these (`Op.respects`).

What the contents of a file are after a write or a truncation can then be said of the disk, byte by
byte (`bytes_end_to_end`).
-/

set_option autoImplicit false

namespace Yfs
namespace Client

open Machine
open Extent (Attr Disk Env File Rep Store cost inumOf tDir tFile tSymlink)
open Status

/-! ## The extent server -/

/-- The disk of the extent server, the locks, and how many requests the server has served. -/
structure Node where
  disk : Disk
  held : Nat → Bool
  served : Nat := 0

/-- The answer that a client makes of a reply. -/
def answer : (c : Cmd) → Extent.Reply → Option c.Ans
  | .create _, .id i => some (.ok i)
  | .get _, .content buf => some (.ok buf)
  | .getattr _, .attr a => some (.ok a)
  | .put _ _, .ok => some (.ok ())
  | .remove _, .ok => some (.ok ())
  | _, _ => none

/-- `extent_server` serves a request; `none` if it goes down. -/
def Node.respond (envs : Nat → Env) (q : Extent.Request) (n : Node) :
    Option (Extent.Reply × Node) :=
  match Extent.exec (Extent.serve (envs n.served) q) n.disk with
  | .error _ => none
  | .ok (r, disk) => some (r, { n with disk := disk, served := n.served + 1 })

/-- A request is served, and the client makes an answer of the reply. -/
def Node.serve (envs : Nat → Env) (c : Cmd) (q : Extent.Request) (n : Node) :
    Option (c.Ans × Node) :=
  (n.respond envs q).bind fun r ↦ (answer c r.1).map fun a ↦ (a, r.2)

/-- A lock is acquired, if it is free, or released. -/
def Node.lock : (c : Cmd) → Node → Option (c.Ans × Node)
  | .acquire lid, n =>
    if n.held lid then none else some ((), { n with held := Function.update n.held lid true })
  | .release lid, n => some ((), { n with held := Function.update n.held lid false })
  | _, _ => none

/-- A command is executed; `envs` is what the server finds in its process with each request. -/
def Node.step (envs : Nat → Env) : (c : Cmd) → Node → Option (c.Ans × Node)
  | .acquire lid, n => n.lock (.acquire lid)
  | .release lid, n => n.lock (.release lid)
  | .create type, n => n.serve envs (.create type) (.create type)
  | .get id, n => n.serve envs (.get id) (.get id)
  | .getattr id, n => n.serve envs (.getattr id) (.getattr id)
  | .put id buf, n => n.serve envs (.put id buf) (.put id buf)
  | .remove id, n => n.serve envs (.remove id) (.remove id)

theorem Node.step_request (envs : Nat → Env) {c : Cmd} {q : Extent.Request}
    (hq : c.request = some q) (n : Node) : n.step envs c = n.serve envs c q := by
  cases c with
  | acquire lid => exact absurd hq (by simp [Cmd.request])
  | release lid => exact absurd hq (by simp [Cmd.request])
  | _ =>
    obtain rfl := Option.some_inj.1 hq
    rfl

/-! ## Refinement -/

/-- An answer without the time stamps in it. -/
def Cmd.untimed : (c : Cmd) → c.Ans → c.Ans
  | .getattr _, .ok a => .ok { type := a.type, size := a.size }
  | _, a => a

/-- Answers that differ at most in time stamps. -/
def Cmd.Same (c : Cmd) (a b : c.Ans) : Prop := c.untimed a = c.untimed b

/-- The node holds these files and locks. -/
structure Node.Holds (n : Node) (s : State) : Prop where
  files : Rep n.disk s.files
  locks : n.held = s.held

/-- The request, if it is one, is one that the extent server makes a promise about. -/
def Promised (c : Cmd) (s : State) : Prop :=
  ∀ q, c.request = some q → (s.files.step q.call).isSome = true

/-- Up to time stamps, the reply from the disk is the one from the map. -/
theorem answer_of_untimed {c : Cmd} {a : c.Ans} {r : Extent.Ret}
    (h : replyOf ⟨c, a⟩ = some r.untimed.reply) : ∃ b, answer c r.reply = some b ∧ c.Same a b := by
  cases c with
  | acquire lid => exact absurd h (by simp [replyOf])
  | release lid => exact absurd h (by simp [replyOf])
  | create type =>
    rcases a with e | i <;> cases r <;>
      simp [replyOf, Extent.Ret.untimed, Extent.Ret.reply] at h
    rw [h]
    exact ⟨_, rfl, rfl⟩
  | get id =>
    rcases a with e | buf <;> cases r <;>
      simp [replyOf, Extent.Ret.untimed, Extent.Ret.reply] at h
    rw [h]
    exact ⟨_, rfl, rfl⟩
  | getattr id =>
    rcases a with e | attr <;> cases r <;>
      simp [replyOf, Extent.Ret.untimed, Extent.Ret.reply] at h
    rw [h]
    exact ⟨_, rfl, rfl⟩
  | put id buf =>
    rcases a with e | ⟨⟩ <;> cases r <;>
      simp [replyOf, Extent.Ret.untimed, Extent.Ret.reply] at h
    exact ⟨_, rfl, rfl⟩
  | remove id =>
    rcases a with e | ⟨⟩ <;> cases r <;>
      simp [replyOf, Extent.Ret.untimed, Extent.Ret.reply] at h
    exact ⟨_, rfl, rfl⟩

/-- The server answers a request that is within its promise; what is sent may be another one, as
long as it leads to the same call. -/
theorem Node.exists_reply (envs : Nat → Env) (q' : Extent.Request) {c : Cmd} {s s' : State}
    {n : Node} {a : c.Ans} {q : Extent.Request} (hprom : Promised c s) (hn : n.Holds s)
    (h : handler c s = some (a, s')) (hq : c.request = some q) (hcall : q'.call = q.call) :
    ∃ (r r' : Extent.Ret) (σ' : Store) (n' : Node) (b : c.Ans),
      s.files.step q.call = some (r, σ') ∧ r'.untimed = r ∧
      n.respond envs q' = some (r'.reply, n') ∧ n'.Holds s' ∧ answer c r'.reply = some b ∧
      c.Same a b := by
  obtain ⟨⟨r, σ'⟩, hstep⟩ := Option.isSome_iff_exists.1 (hprom q hq)
  obtain ⟨a', ha', hreply⟩ := handler_of_step hq hstep s.held
  obtain ⟨rfl, rfl⟩ := Prod.mk.inj (Option.some_inj.1 (ha'.symm.trans h))
  have hstep' : s.files.step q'.call = some (r, σ') := hcall ▸ hstep
  obtain ⟨r', d, hx, hr, hrep⟩ := hn.files.perform (envs n.served) hstep'
  obtain ⟨b, hb, hsame⟩ := answer_of_untimed (r := r') (hr ▸ hreply)
  refine ⟨r, r', σ', { n with disk := d, served := n.served + 1 }, b, hstep, hr, ?_,
    ⟨hrep, hn.locks⟩, hb, hsame⟩
  rw [Node.respond, Extent.serve, Extent.exec_map _ hx]

/-- The locks of a node are those of the clients. -/
theorem Node.lock_of_handler {c : Cmd} {s s' : State} {n : Node} {a : c.Ans}
    (hq : c.request = none) (hn : n.Holds s) (h : handler c s = some (a, s')) :
    ∃ b n', n.lock c = some (b, n') ∧ c.Same a b ∧ n'.Holds s' := by
  cases c with
  | acquire lid =>
    rw [handler] at h
    split at h
    · exact absurd h (by simp)
    · rename_i hfree
      obtain ⟨-, rfl⟩ := Prod.mk.inj (Option.some_inj.1 h)
      rw [← hn.locks] at hfree ⊢
      exact ⟨(), _, if_neg hfree, rfl, hn.files, rfl⟩
  | release lid =>
    obtain ⟨-, rfl⟩ := Prod.mk.inj (Option.some_inj.1 h)
    exact ⟨(), _, rfl, rfl, hn.files, by rw [hn.locks]⟩
  | _ => exact absurd hq (by simp [Cmd.request])

/-- **One command.**  What the map answers, the disk answers. -/
theorem Node.step_of_handler (envs : Nat → Env) {c : Cmd} {s s' : State} {n : Node} {a : c.Ans}
    (hprom : Promised c s) (hn : n.Holds s) (h : handler c s = some (a, s')) :
    ∃ b n', n.step envs c = some (b, n') ∧ c.Same a b ∧ n'.Holds s' := by
  cases hq : c.request with
  | none =>
    obtain ⟨b, n', hlock, hsame⟩ := Node.lock_of_handler hq hn h
    refine ⟨b, n', ?_, hsame⟩
    cases c with
    | acquire lid => exact hlock
    | release lid => exact hlock
    | _ => exact absurd hq (by simp [Cmd.request])
  | some q =>
    obtain ⟨-, r', -, n', b, -, -, hrespond, hn', hb, hsame⟩ :=
      Node.exists_reply envs q hprom hn h hq rfl
    refine ⟨b, n', ?_, hsame, hn'⟩
    rw [Node.step_request envs hq, Node.serve, hrespond, Option.bind_some, hb, Option.map_some]

/-! ### No operation looks at the time -/

namespace Held

theorem respects_isdir (inum : Nat) : (isdir inum).Respects Cmd.Same := by
  refine Prog.respects_ask_bind (fun a b hab ↦ ?_) fun a ↦ ?_
  · rcases a with e | a <;> rcases b with e' | b
    · rfl
    · exact absurd hab (by simp [Cmd.Same, Cmd.untimed])
    · exact absurd hab (by simp [Cmd.Same, Cmd.untimed])
    · have hattr : ({ type := a.type, size := a.size } : Attr) =
        { type := b.type, size := b.size } :=
        Except.ok.inj hab
      have htype : a.type = b.type := (Attr.mk.inj hattr).1
      simp only [htype]
  · rcases a with e | a <;> trivial

/-- The time stamps are in the answer to `getattr` only. -/
theorem respects_get {α : Type} {id : Nat} {f : Except Int Bytes → ClientM α}
    (hf : ∀ a, (f a).Respects Cmd.Same) : (Prog.ask (Cmd.get id) >>= f).Respects Cmd.Same :=
  Prog.respects_ask_bind (fun a b (hab : a = b) ↦ by rw [hab]) hf

theorem respects_put {α : Type} {id : Nat} {buf : Bytes} {f : Except Int Unit → ClientM α}
    (hf : ∀ a, (f a).Respects Cmd.Same) : (Prog.ask (Cmd.put id buf) >>= f).Respects Cmd.Same :=
  Prog.respects_ask_bind (fun a b (hab : a = b) ↦ by rw [hab]) hf

theorem respects_readdir (dir : Nat) : (readdir dir).Respects Cmd.Same := by
  refine respects_get fun a ↦ ?_
  rcases a with e | buf
  · trivial
  · simp only
    split <;> trivial

theorem respects_lookup (parent : Nat) (name : Bytes) (ino : Nat) :
    (lookup parent name ino).Respects Cmd.Same := by
  refine (respects_isdir parent).bind fun b ↦ ?_
  split
  · refine (respects_readdir parent).bind fun r ↦ ?_
    simp only
    split
    · trivial
    · split <;> trivial
  · trivial

theorem respects_addEntry (parent : Nat) (name : Bytes) (ino : Nat) :
    (addEntry parent name ino).Respects Cmd.Same := by
  refine respects_get fun a ↦ ?_
  rcases a with e | buf
  · trivial
  · refine respects_put fun a ↦ ?_
    rcases a with e | ⟨⟩ <;> trivial

theorem respects_newInode (type ino : Nat) : (newInode type ino).Respects Cmd.Same := by
  refine Prog.respects_ask_bind (fun a b (hab : a = b) ↦ by rw [hab]) fun a ↦ ?_
  rcases a with e | i <;> trivial

theorem respects_make (type parent : Nat) (name : Bytes) (ino : Nat) :
    (make type parent name ino).Respects Cmd.Same := by
  refine (respects_lookup parent name ino).bind fun r ↦ ?_
  simp only
  split
  · trivial
  · exact (respects_newInode type _).bind fun i ↦ (respects_addEntry parent name i).map _

theorem respects_symlink (parent : Nat) (name link : Bytes) (ino : Nat) :
    (symlink parent name link ino).Respects Cmd.Same := by
  refine (respects_lookup parent name ino).bind fun r ↦ ?_
  simp only
  split
  · trivial
  · exact (respects_newInode tSymlink _).bind fun i ↦ respects_put fun _ ↦
      (respects_addEntry parent name i).map _

theorem respects_unlink (parent : Nat) (name : Bytes) : (unlink parent name).Respects Cmd.Same := by
  refine (respects_lookup parent name 0).bind fun r ↦ ?_
  simp only
  split
  · trivial
  · refine Prog.respects_ask_bind (fun _ _ _ ↦ rfl) fun _ ↦ respects_get fun a ↦ ?_
    rcases a with e | buf
    · trivial
    · simp only
      split
      · trivial
      · refine respects_put fun a ↦ ?_
        rcases a with e | ⟨⟩ <;> trivial

theorem respects_setattr (ino size : Nat) : (setattr ino size).Respects Cmd.Same := by
  refine respects_get fun a ↦ ?_
  rcases a with e | buf
  · trivial
  · simp only
    split
    · trivial
    · refine respects_put fun a ↦ ?_
      rcases a with e | ⟨⟩ <;> trivial

theorem respects_read (ino size : Nat) (off : Int) : (read ino size off).Respects Cmd.Same := by
  refine respects_get fun a ↦ ?_
  rcases a with e | buf
  · trivial
  · simp only
    split
    · trivial
    · split <;> trivial

theorem respects_write (ino : Nat) (off : Int) (data : Bytes) :
    (write ino off data).Respects Cmd.Same := by
  refine respects_get fun a ↦ ?_
  rcases a with e | buf
  · trivial
  · simp only
    split
    · trivial
    · refine respects_put fun a ↦ ?_
      rcases a with e | ⟨⟩ <;> trivial

theorem respects_readlink (ino : Nat) : (readlink ino).Respects Cmd.Same := by
  refine respects_get fun a ↦ ?_
  rcases a with e | buf <;> trivial

end Held

/-- **No operation depends on time stamps.** -/
theorem Op.respects (op : Op) : op.prog.Respects Cmd.Same := by
  have hbody : op.body.Respects Cmd.Same := by
    cases op with
    | read ino size off => exact (Held.respects_read ino size off).map _
    | write ino off data => exact (Held.respects_write ino off data).map _
    | setattr ino size => exact (Held.respects_setattr ino size).map _
    | lookup parent name ino => exact (Held.respects_lookup parent name ino).map _
    | readdir dir => exact (Held.respects_readdir dir).map _
    | create parent name ino => exact (Held.respects_make tFile parent name ino).map _
    | mkdir parent name ino => exact (Held.respects_make tDir parent name ino).map _
    | symlink parent name link ino => exact (Held.respects_symlink parent name link ino).map _
    | readlink ino => exact (Held.respects_readlink ino).map _
    | unlink parent name => exact (Held.respects_unlink parent name).map _
  refine Prog.respects_ask_bind (fun _ _ _ ↦ rfl) fun _ ↦ hbody.bind fun r ↦ ?_
  exact Prog.respects_ask_bind (fun _ _ _ ↦ rfl) fun _ ↦ trivial

/-- **Every operation does on the disk what it does on the map**, if the requests that it makes are
within what the server promises. -/
theorem Op.eval_node (envs : Nat → Env) {op : Op} {s s' : State} {n : Node}
    {o : Except Fault Result} (hprom : op.prog.Always handler Promised s) (hn : n.Holds s)
    (he : op.prog.eval handler s = some (o, s')) :
    ∃ n', op.prog.eval (Node.step envs) n = some (o, n') ∧ n'.Holds s' :=
  Prog.eval_simulation (g := Node.step envs) (Q := fun s n ↦ n.Holds s)
    (fun hP hn hc ↦ Node.step_of_handler envs hP hn hc) op.respects hprom hn he

/-! ## Requests within the promise -/

/-- Locks are not a matter of the extent server. -/
theorem Op.always_prog {op : Op} {σ : Store} {held : Nat → Bool}
    (h : ∀ held', op.body.Always handler Promised ⟨σ, held'⟩) :
    op.prog.Always handler Promised ⟨σ, held⟩ :=
  always_locked (fun _ _ q hq ↦ absurd hq (by simp [Cmd.request]))
    (fun _ _ q hq ↦ absurd hq (by simp [Cmd.request])) h

variable {σ : Store} {id : Nat} {f : File} {held : Nat → Bool}

/-- The request is about a file that there is. -/
theorem promised_get (hf : σ (inumOf id) = some f) : Promised (.get id) ⟨σ, held⟩ := by
  intro q hq
  obtain rfl := Option.some_inj.1 hq
  simp [Extent.Request.call, Store.step, hf]

theorem promised_put (hf : σ (inumOf id) = some f) {buf : Bytes} (hlen : buf.length ≤ 81920)
    (hload : Store.load (Function.update σ (inumOf id) (some { f with data := buf }))
      ≤ Store.capacity) : Promised (.put id buf) ⟨σ, held⟩ := by
  intro q hq
  obtain rfl := Option.some_inj.1 hq
  simp only [Extent.Request.call, Store.step, hf, Option.bind_some]
  rw [if_pos ⟨hlen, hload⟩]
  rfl

theorem handler_get (hf : σ (inumOf id) = some f) :
    handler (.get id) ⟨σ, held⟩ = some (.ok f.data, ⟨σ, held⟩) := by
  simp only [handler, handler.inodeAt, touch, Option.map_some, Function.update_eq_self]
  rw [hf]
  rfl

/-- An operation that begins with reading a file. -/
theorem always_get {α : Type} {P : Cmd → State → Prop} (hP : ∀ {c s}, Promised c s → P c s)
    {g : Except Int Bytes → ClientM α} (hf : σ (inumOf id) = some f)
    (hg : (g (.ok f.data)).Always handler P ⟨σ, held⟩) :
    (Prog.ask (Cmd.get id) >>= g).Always handler P ⟨σ, held⟩ := by
  refine Prog.always_ask_bind (hP (promised_get hf)) fun a s ha ↦ ?_
  obtain ⟨rfl, rfl⟩ := Prod.mk.inj (Option.some_inj.1 ((handler_get hf).symm.trans ha))
  exact hg

namespace Held

theorem always_write {off : Int} {data : Bytes} (hf : σ (inumOf id) = some f)
    (hlen : (written f.data off data).length ≤ 81920)
    (hload : Store.load (Function.update σ (inumOf id)
      (some { f with data := written f.data off data })) ≤ Store.capacity) :
    (write id off data).Always handler Promised ⟨σ, held⟩ := by
  refine always_get (fun h ↦ h) hf ?_
  simp only
  split
  · trivial
  · refine Prog.always_ask_bind (promised_put hf hlen hload) fun a s _ ↦ ?_
    rcases a with e | ⟨⟩ <;> trivial

theorem always_setattr {size : Nat} (hf : σ (inumOf id) = some f)
    (hlen : (resize f.data size).length ≤ 81920)
    (hload : Store.load (Function.update σ (inumOf id)
      (some { f with data := resize f.data size })) ≤ Store.capacity) :
    (setattr id size).Always handler Promised ⟨σ, held⟩ := by
  refine always_get (fun h ↦ h) hf ?_
  simp only
  split
  · trivial
  · refine Prog.always_ask_bind (promised_put hf hlen hload) fun a s _ ↦ ?_
    rcases a with e | ⟨⟩ <;> trivial

theorem always_read {size : Nat} {off : Int} (hf : σ (inumOf id) = some f) :
    (read id size off).Always handler Promised ⟨σ, held⟩ := by
  refine always_get (fun h ↦ h) hf ?_
  simp only
  split
  · trivial
  · split <;> trivial

/-! ## Bytes -/

/-- The contents with the gap before the offset filled. -/
theorem exists_filled (buf : Bytes) (off : Nat) : ∃ buf' : Bytes,
    (∀ data, written buf off data = buf'.take off ++ data ++ buf'.drop (off + data.length)) ∧
    buf'.length = max buf.length off ∧
    (∀ j, j < off → buf'[j]? = if j < buf.length then buf[j]? else some 0) ∧
    ∀ j, off ≤ j → buf'[j]? = buf[j]? := by
  by_cases hgap : off > buf.length
  · refine ⟨resize buf off, fun data ↦ ?_, ?_, fun j hj ↦ getElem?_resize buf hj, fun j hj ↦ ?_⟩
    · simp only [written, Int.toNat_natCast, Int.ofNat_lt, gt_iff_lt, if_pos hgap]
    · rw [length_resize]
      omega
    · rw [List.getElem?_eq_none (by rw [length_resize]; omega), List.getElem?_eq_none (by omega)]
  · refine ⟨buf, fun data ↦ ?_, by omega, fun j hj ↦ ?_, fun j hj ↦ rfl⟩
    · simp only [written, Int.toNat_natCast, Int.ofNat_lt, gt_iff_lt, if_neg hgap]
    · rw [if_pos (by omega)]

/-- **The bytes after a write.** -/
theorem getElem?_written (buf : Bytes) (off : Nat) (data : Bytes) (j : Nat) :
    (written buf off data)[j]? =
      if j < off then (if j < buf.length then buf[j]? else some 0)
      else if j < off + data.length then data[j - off]? else buf[j]? := by
  obtain ⟨buf', hwritten, hlen, hbelow, habove⟩ := exists_filled buf off
  have htake : (buf'.take off).length = off := by
    rw [List.length_take]
    omega
  rw [hwritten, List.append_assoc, List.getElem?_append, htake]
  split
  · rename_i hj
    rw [List.getElem?_take_of_lt hj, hbelow j hj]
  · rename_i hj
    rw [List.getElem?_append]
    split
    · rw [if_pos (by omega)]
    · rw [if_neg (by omega), List.getElem?_drop, habove _ (by omega)]
      congr 1
      omega

theorem length_written (buf : Bytes) (off : Nat) (data : Bytes) :
    (written buf off data).length = max buf.length (off + data.length) := by
  obtain ⟨buf', hwritten, hlen, -⟩ := exists_filled buf off
  rw [hwritten, List.length_append, List.length_append, List.length_take, List.length_drop]
  omega

end Held

/-! ## End to end -/

/-- The file has these contents: they are what `read_file` returns. -/
def Contains (d : Disk) (i : Nat) (c : Bytes) : Prop :=
  ∀ env, ∃ d', Extent.exec (Extent.readFile env i) d = .ok (some c, d')

/-- There is room for a file of `size` bytes in the place of this one. -/
def Room (d : Disk) (i size : Nat) : Prop :=
  size ≤ 81920 ∧ cost size ≤ d.freeSet.card + ((d.inode i).owned d).length

/-- **Bytes, from the client to the disk.**  On any disk that holds some files, with the lock free:

* a write puts the data at its offset, leaves the other bytes, and fills a gap with zeros;
* `setattr` cuts the contents off, or fills up with zeros;
* a read returns the bytes from the offset on, as many as there are.

In each case the disk holds the other files as before. -/
theorem bytes_end_to_end (envs : Nat → Env) (d : Disk) (σ : Store) (h : Rep d σ)
    (id : Nat) (f : File)
    (hf : σ (inumOf id) = some f) (held : Nat → Bool) (hfree : held id = false) (k : Nat) :
    (∀ (off : Nat) (data : Bytes), Room d (inumOf id) (max f.data.length (off + data.length)) →
      ∃ n new, (Op.write id off data).prog.eval (Node.step envs) ⟨d, held, k⟩
          = some (.ok (.written OK data.length), n) ∧
        n.Holds ⟨Function.update σ (inumOf id) (some { f with data := new }), held⟩ ∧
        Contains n.disk (inumOf id) new ∧
        new.length = max f.data.length (off + data.length) ∧
        (∀ j, j < data.length → new[off + j]? = data[j]?) ∧
        (∀ j, j < f.data.length → j < off ∨ off + data.length ≤ j → new[j]? = f.data[j]?) ∧
        ∀ j, f.data.length ≤ j → j < off → new[j]? = some 0) ∧
    (∀ size : Nat, Room d (inumOf id) size →
      ∃ n new, (Op.setattr id size).prog.eval (Node.step envs) ⟨d, held, k⟩
          = some (.ok (.status OK), n) ∧
        n.Holds ⟨Function.update σ (inumOf id) (some { f with data := new }), held⟩ ∧
        Contains n.disk (inumOf id) new ∧
        new = f.data.take size ++ List.replicate (size - f.data.length) 0) ∧
    ∀ size off : Nat,
      ∃ n r, (Op.read id size off).prog.eval (Node.step envs) ⟨d, held, k⟩
          = some (.ok (.data OK r), n) ∧
        n.Holds ⟨σ, held⟩ ∧
        r = (f.data.take (off + size)).drop off ∧ (f.data.length ≤ off → r = []) := by
  have hn : (⟨d, held, k⟩ : Node).Holds ⟨σ, held⟩ := ⟨h, rfl⟩
  have hcontains : ∀ {n : Node} {new : Bytes},
      n.Holds ⟨Function.update σ (inumOf id) (some { f with data := new }), held⟩ →
      Contains n.disk (inumOf id) new := fun hn env ↦
    ⟨_, (hn.files.readFile env (Function.update_self ..)).1⟩
  refine ⟨fun off data hroom ↦ ?_, fun size hroom ↦ ?_, fun size off ↦ ?_⟩
  · have hlen := Held.length_written f.data off data
    rw [← hlen] at hroom
    obtain ⟨n, hrun, hn'⟩ := Op.eval_node envs
      (Op.always_prog fun _ ↦ (Held.always_write hf hroom.1 ((h.load_le_iff hf).2 hroom.2)).map _)
      hn ((Op.runs_write hf (Int.natCast_nonneg off)).prog hfree)
    refine ⟨n, _, hrun, hn', hcontains hn', hlen, fun j hj ↦ ?_, fun j hj hout ↦ ?_,
      fun j hj hgap ↦ ?_⟩
    · rw [Held.getElem?_written, if_neg (by omega), if_pos (by omega), Nat.add_sub_cancel_left]
    · rw [Held.getElem?_written]
      rcases hout with hlt | hge
      · rw [if_pos hlt, if_pos hj]
      · rw [if_neg (by omega), if_neg (by omega)]
    · rw [Held.getElem?_written, if_pos hgap, if_neg (by omega)]
  · have hsize : size < 2 ^ 63 := hroom.1.trans_lt (by decide)
    rw [← length_resize f.data size] at hroom
    obtain ⟨n, hrun, hn'⟩ := Op.eval_node envs
      (Op.always_prog fun _ ↦ (Held.always_setattr hf hroom.1 ((h.load_le_iff hf).2 hroom.2)).map _)
      hn ((Op.runs_setattr hf hsize).prog hfree)
    exact ⟨n, _, hrun, hn', hcontains hn', rfl⟩
  · have hread : Runs (Op.read id size off).body σ
        (.ok (.data OK ((f.data.take (off + size)).drop off))) σ := by
      have hsmall := (h.file _ f hf).small
      rw [List.drop_take, Nat.add_sub_cancel_left]
      exact (Held.runs_read size hf (by omega) (Int.natCast_nonneg off)).map _
    obtain ⟨n, hrun, hn'⟩ := Op.eval_node envs
      (Op.always_prog fun _ ↦ (Held.always_read hf).map _) hn (hread.prog hfree)
    refine ⟨n, _, hrun, hn', rfl, fun hge ↦ List.drop_eq_nil_of_le ?_⟩
    rw [List.length_take]
    omega

/-- A byte is written behind the end of a file of three bytes. -/
theorem bytes_end_to_end_gap : ∃ d n new, Rep d (Store.filled [97, 98, 99] 1) ∧
    (Op.write 2 5 [120]).prog.eval (Node.step fun _ ↦ default) ⟨d, fun _ ↦ false, 0⟩
      = some (.ok (.written OK 1), n) ∧
    Contains n.disk 2 new ∧ new.length = 6 ∧
      new[2]? = some 99 ∧ new[4]? = some 0 ∧ new[5]? = some 120 := by
  obtain ⟨calls, d, hs⟩ := Extent.exists_session_filled [97, 98, 99] 1 (by decide) (by decide)
    (by decide)
  have hrep := hs.rep
  have hroom : Room d (inumOf 2) (max 3 (5 + 1)) := by
    have hcard := hrep.card_freeSet
    rw [Store.load_filled (by decide)] at hcard
    have hfits : 1 * cost [97, 98, 99].length + cost (max 3 (5 + 1)) ≤ Store.capacity := by decide
    exact ⟨by decide, by omega⟩
  obtain ⟨hwrite, -⟩ := bytes_end_to_end (fun _ ↦ default) d (Store.filled [97, 98, 99] 1) hrep 2
    ⟨tFile, [97, 98, 99]⟩ rfl (fun _ ↦ false) rfl 0
  obtain ⟨n, new, he, -, hc, hlen, hdata, hkeep, hgap⟩ := hwrite 5 [120] hroom
  exact ⟨d, n, new, hrep, he, hc, hlen, hkeep 2 (by decide) (by decide),
    hgap 4 (by decide) (by decide), hdata 0 (by decide)⟩

end Client
end Yfs
