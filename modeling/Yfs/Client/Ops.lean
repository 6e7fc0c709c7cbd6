import Yfs.Machine.Prog
import Yfs.Extent.Server
import Yfs.Client.Dir

/-!
# The operations of the file system

`yfs_client`.  An operation acquires the lock of one inode, executes RPCs to the extent server, and
releases the lock.  It is a program whose commands are these steps (`Cmd`), because that is the
granularity at which the operations of several clients can get into each other's way.  An RPC
answers with its results, or with a status other than `OK`; a call that has failed leaves its
results as they were.

The source has each operation twice, once with the locking and once, with an underscore, without.
The second ones are in the namespace `Held`.  Results that the source returns through references are
returned in a pair with the status.  What was in such a variable before can matter: `_create` goes
on after a failed `create` with whatever the caller has put there, so `ino` is an argument.  The
other results are set before as `fuse.cc` does, to the empty string and to the size of the data.

`_create` and `_mkdir` differ only in the type of the inode that they make (`Held.make`); their last
part is also the last part of `_symlink` (`Held.addEntry`).
-/

set_option autoImplicit false

namespace Yfs
namespace Client

open Machine
open Extent (Attr tDir tFile tSymlink)

/-! ## Commands -/

/-- A step of an operation: a call to the lock client or to the extent server. -/
inductive Cmd where
  | acquire (lid : Nat)
  | release (lid : Nat)
  | create (type : Nat)
  | get (id : Nat)
  | getattr (id : Nat)
  | put (id : Nat) (buf : Bytes)
  | remove (id : Nat)
  deriving DecidableEq

/-- What a command answers; an RPC that fails answers with its status. -/
@[reducible] def Cmd.Ans : Cmd → Type
  | .acquire _ | .release _ => Unit
  | .create _ => Except Int Nat
  | .get _ => Except Int Bytes
  | .getattr _ => Except Int Attr
  | .put _ _ | .remove _ => Except Int Unit

/-- How an operation can come to an end without returning. -/
inductive Fault where
  /-- `std::out_of_range`, which nobody catches. -/
  | outOfRange
  /-- `std::length_error`. -/
  | lengthError
  /-- The loop of `_readdir` never ends. -/
  | endless
  deriving DecidableEq, Repr

/-- A program of the client. -/
abbrev ClientM (α : Type) := Prog Cmd Cmd.Ans Fault α

namespace Status

/-- `yfs_client::OK`. -/
abbrev OK : Int := 0
/-- `yfs_client::NOENT`. -/
abbrev NOENT : Int := 2
/-- `yfs_client::EXIST`. -/
abbrev EXIST : Int := 4

end Status

open Status

/-- `buf.resize(size)`. -/
def resize (buf : Bytes) (size : Nat) : Bytes :=
  buf.take size ++ List.replicate (size - buf.length) 0

theorem length_resize (buf : Bytes) (size : Nat) : (resize buf size).length = size := by
  rw [resize, List.length_append, List.length_take, List.length_replicate]
  omega

theorem getElem?_resize (buf : Bytes) {size j : Nat} (hj : j < size) :
    (resize buf size)[j]? = if j < buf.length then buf[j]? else some 0 := by
  rw [resize, List.getElem?_append, List.length_take]
  split
  · rw [List.getElem?_take_of_lt hj, if_pos (by omega)]
  · rw [List.getElem?_replicate_of_lt (by omega), if_neg (by omega)]

theorem resize_eq_self_iff {buf : Bytes} {size : Nat} :
    resize buf size = buf ↔ size = buf.length := by
  constructor
  · intro h
    rw [← length_resize buf size, h]
  · rintro rfl
    rw [resize, List.take_length, Nat.sub_self, List.replicate_zero, List.append_nil]

/-! ## Operations, with the lock held -/

namespace Held

/-- `_isdir`. -/
def isdir (inum : Nat) : ClientM Bool := do
  match ← Prog.ask (Cmd.getattr inum) with
  | .error _ => pure false
  | .ok a => pure (a.type = tDir)

/-- `_readdir`. -/
def readdir (dir : Nat) : ClientM (Int × List Dirent) := do
  match ← Prog.ask (Cmd.get dir) with
  | .error r => pure (r, [])
  | .ok buf =>
    match parseDir buf with
    | none => .throw .endless
    | some ents => pure (OK, ents)

/-- `_lookup`: the status, `found` and `ino_out`. -/
def lookup (parent : Nat) (name : Bytes) (ino : Nat) : ClientM (Int × Bool × Nat) := do
  if ← isdir parent then
    let (r, ents) ← readdir parent
    if r ≠ OK then pure (r, false, ino)
    else
      match ents.find? (·.name = name) with
      | some e => pure (EXIST, true, e.inum)
      | none => pure (OK, false, ino)
  else pure (OK, false, ino)

/-- The last part of `_create`, `_mkdir` and `_symlink`: an entry is appended to the directory. -/
def addEntry (parent : Nat) (name : Bytes) (ino : Nat) : ClientM Int := do
  match ← Prog.ask (Cmd.get parent) with
  | .error r => pure r
  | .ok buf =>
    match ← Prog.ask (Cmd.put parent (buf ++ (Dirent.mk name ino).text)) with
    | .error r => pure r
    | .ok () => pure OK

/-- `ec->create(type, ino_out)`, the status of which is not looked at. -/
def newInode (type ino : Nat) : ClientM Nat := do
  match ← Prog.ask (Cmd.create type) with
  | .error _ => pure ino
  | .ok i => pure i

/-- `_create` and `_mkdir`: the status and `ino_out`. -/
def make (type parent : Nat) (name : Bytes) (ino : Nat) : ClientM (Int × Nat) := do
  let (r, found, ino) ← lookup parent name ino
  if found then pure (r, ino)
  else
    let ino ← newInode type ino
    let r ← addEntry parent name ino
    pure (r, ino)

/-- `_create`. -/
def create (parent : Nat) (name : Bytes) (ino : Nat) : ClientM (Int × Nat) :=
  make tFile parent name ino

/-- `_mkdir`. -/
def mkdir (parent : Nat) (name : Bytes) (ino : Nat) : ClientM (Int × Nat) :=
  make tDir parent name ino

/-- `_symlink`: the status and `ino_out`. -/
def symlink (parent : Nat) (name link : Bytes) (ino : Nat) : ClientM (Int × Nat) := do
  let (_, found, ino) ← lookup parent name ino
  if found then pure (EXIST, ino)
  else
    let ino ← newInode tSymlink ino
    let _ ← Prog.ask (Cmd.put ino link)
    let r ← addEntry parent name ino
    pure (r, ino)

/-- `_unlink`. -/
def unlink (parent : Nat) (name : Bytes) : ClientM Int := do
  let (_, found, toremove) ← lookup parent name 0
  if !found then pure NOENT
  else
    let _ ← Prog.ask (Cmd.remove toremove)
    let ent := (Dirent.mk name toremove).text
    match ← Prog.ask (Cmd.get parent) with
    | .error r => pure r
    | .ok buf =>
      match findText ent buf with
      | none => .throw .outOfRange
      | some pos =>
        match ← Prog.ask (Cmd.put parent (buf.take pos ++ buf.drop (pos + ent.length))) with
        | .error r => pure r
        | .ok () => pure OK

/-- `_setattr`.  No string has 2^63 bytes, and `resize` throws. -/
def setattr (ino size : Nat) : ClientM Int := do
  match ← Prog.ask (Cmd.get ino) with
  | .error r => pure r
  | .ok buf =>
    if 2 ^ 63 ≤ size then .throw .lengthError
    else
      match ← Prog.ask (Cmd.put ino (resize buf size)) with
      | .error r => pure r
      | .ok () => pure OK

/-- `_read`: the status and `data`.  The size is compared as an `int`, and the offset is used as a
`uint`. -/
def read (ino size : Nat) (off : Int) : ClientM (Int × Bytes) := do
  match ← Prog.ask (Cmd.get ino) with
  | .error r => pure (r, [])
  | .ok buf =>
    if Int.bmod buf.length (2 ^ 32) ≤ off then pure (OK, [])
    else
      let pos := (off % 2 ^ 32).toNat
      if pos > buf.length then .throw .outOfRange
      else pure (OK, (buf.drop pos).take size)

/-- `_write`: the status and `bytes_written`.  A negative offset is too large for `replace`. -/
def write (ino : Nat) (off : Int) (data : Bytes) : ClientM (Int × Nat) := do
  match ← Prog.ask (Cmd.get ino) with
  | .error r => pure (r, data.length)
  | .ok buf =>
    let buf := if off > buf.length then resize buf off.toNat else buf
    if off < 0 then .throw .outOfRange
    else
      let pos := off.toNat
      let buf := buf.take pos ++ data ++ buf.drop (pos + data.length)
      match ← Prog.ask (Cmd.put ino buf) with
      | .error r => pure (r, data.length)
      | .ok () => pure (OK, data.length)

/-- `_readlink`: the status and `link`. -/
def readlink (ino : Nat) : ClientM (Int × Bytes) := do
  match ← Prog.ask (Cmd.get ino) with
  | .error r => pure (r, [])
  | .ok buf => pure (OK, buf)

end Held

/-! ## Operations -/

/-- Acquire the lock of an inode, do something, and release it. -/
def locked {α : Type} (inum : Nat) (p : ClientM α) : ClientM α := do
  Prog.ask (Cmd.acquire inum)
  let r ← p
  Prog.ask (Cmd.release inum)
  pure r

/-- An operation with its arguments. -/
inductive Op where
  | read (ino size : Nat) (off : Int)
  | write (ino : Nat) (off : Int) (data : Bytes)
  | setattr (ino size : Nat)
  | lookup (parent : Nat) (name : Bytes) (ino : Nat)
  | readdir (dir : Nat)
  | create (parent : Nat) (name : Bytes) (ino : Nat)
  | mkdir (parent : Nat) (name : Bytes) (ino : Nat)
  | symlink (parent : Nat) (name link : Bytes) (ino : Nat)
  | readlink (ino : Nat)
  | unlink (parent : Nat) (name : Bytes)

/-- What an operation returns: the status, and the results that it has. -/
inductive Result where
  | status (r : Int)
  | data (r : Int) (data : Bytes)
  | written (r : Int) (size : Nat)
  | found (r : Int) (found : Bool) (ino : Nat)
  | list (r : Int) (ents : List Dirent)
  | ino (r : Int) (ino : Nat)
  deriving DecidableEq

/-- The status that an operation returns. -/
def Result.code : Result → Int
  | status r | data r _ | written r _ | found r _ _ | list r _ | ino r _ => r

namespace Op

/-- The inode whose lock the operation acquires. -/
def target : Op → Nat
  | read i _ _ | write i _ _ | setattr i _ | lookup i _ _ | readdir i | create i _ _ | mkdir i _ _
  | symlink i _ _ _ | readlink i | unlink i _ => i

/-- What the operation does with the lock held. -/
def body : Op → ClientM Result
  | read ino size off => (fun (r, data) ↦ .data r data) <$> Held.read ino size off
  | write ino off data => (fun (r, size) ↦ .written r size) <$> Held.write ino off data
  | setattr ino size => .status <$> Held.setattr ino size
  | lookup parent name ino => (fun (r, found, ino) ↦ .found r found ino) <$>
    Held.lookup parent name ino
  | readdir dir => (fun (r, ents) ↦ .list r ents) <$> Held.readdir dir
  | create parent name ino => (fun (r, ino) ↦ .ino r ino) <$> Held.create parent name ino
  | mkdir parent name ino => (fun (r, ino) ↦ .ino r ino) <$> Held.mkdir parent name ino
  | symlink parent name link ino => (fun (r, ino) ↦ .ino r ino) <$>
    Held.symlink parent name link ino
  | readlink ino => (fun (r, link) ↦ .data r link) <$> Held.readlink ino
  | unlink parent name => .status <$> Held.unlink parent name

/-- `setattr`, `create`, `mkdir`, `lookup`, `readdir`, `read`, `write`, `unlink`, `symlink` and
`readlink`: a call that does not return keeps the lock. -/
def prog (op : Op) : ClientM Result := do
  Prog.ask (Cmd.acquire op.target)
  let r ← op.body
  Prog.ask (Cmd.release op.target)
  pure r

theorem prog_eq_locked (op : Op) : op.prog = locked op.target op.body := rfl

end Op

end Client
end Yfs
