import Yfs.Machine.Paging
import Yfs.Machine.Simulation
import Yfs.Client.Fuse
import Yfs.Client.Namespace

/-!
# The mounted file system

The handlers of `fuse.cc`, with what they reply to the kernel (`Fuseserver.Request.prog`), against a
file system as its users know it: a table of files, directories and symbolic links (`Tree`), and for
every request the reply and what becomes of the table (`Tree.serve`).

Where `Tree.serve` says something, the handlers do just that, request after request (`mounted_run`),
and all that the extent server is asked for is within its promise, so that it is all the same for
its disk (`Client/Stack`).  There are requests about which `Tree.serve` says nothing.  The kernel
does not make some of them: about an inode that does not exist, which is a symbolic link for
`getattr`, with names that have a slash in them, or with a negative offset.  The others are too much
for the code: a change of the times cuts off a file, a directory that is removed takes its entries
with it, an entry cannot be found by its text if another one is named by its number, and a file
system that is full, with all its inodes used or too little room for what is written, stops or loses
data.

A handler calls the file system several times, and each of these calls takes a lock and gives it
back.  Requests are executed one at a time here, with all locks free in between (`Serves`).
-/

set_option autoImplicit false

namespace Yfs
namespace Client

open Machine
open Extent (File Fitting Store inumOf tDir tFile tSymlink)
open Status

/-! ## Results -/

/-- The inode number that an operation returns. -/
def Result.inum : Result → Nat
  | .found _ _ i | .ino _ i => i
  | _ => 0

/-- The bytes that an operation returns. -/
def Result.bytes : Result → Bytes
  | .data _ b => b
  | _ => []

/-- The entries that an operation returns. -/
def Result.ents : Result → List Dirent
  | .list _ l => l
  | _ => []

/-! ## The handlers -/

namespace Fuseserver

open Fuse

/-- `ENOENT`. -/
abbrev ENOENT : Nat := 2
/-- `EEXIST`. -/
abbrev EEXIST : Nat := 17
/-- `ENOTDIR`. -/
abbrev ENOTDIR : Nat := 20
/-- `ENOTEMPTY`. -/
abbrev ENOTEMPTY : Nat := 39

/-- What a handler replies. -/
inductive Answer where
  /-- `fuse_reply_attr` or `fuse_reply_err`. -/
  | reply (r : Reply)
  /-- `fuse_reply_buf`. -/
  | buf (data : Bytes)
  /-- `fuse_reply_write`. -/
  | write (size : Nat)
  /-- `fuse_reply_entry`, with `e.ino` and `e.attr`. -/
  | entry (ino : Nat) (attr : Stat)
  /-- `fuse_reply_create`. -/
  | create (ino : Nat) (attr : Stat)
  /-- `fuse_reply_open`. -/
  | opened
  /-- `fuse_reply_statfs`. -/
  | statfs (bsize namemax : Nat)
  /-- `fuse_reply_readlink`. -/
  | readlink (link : Bytes)
  deriving DecidableEq

/-- `fuse_reply_err`. -/
abbrev Answer.err (errno : Nat) : Answer := .reply (.err errno)

/-- `c_str`, as far as it is read. -/
def cStr (s : Bytes) : Bytes := s.takeWhile (· ≠ 0)

section

variable (L : Libfuse)

/-- `dirbuf_add`. -/
def dirbufAdd (b name : Bytes) (ino : Nat) : Bytes :=
  b ++ L.addDirent name ino (b.length + L.direntSize name.length)

/-- The entries of a directory for the kernel. -/
def dirbuf (ents : List Dirent) : Bytes :=
  ents.foldl (fun b e ↦ dirbufAdd L b (cStr e.name) e.inum) []

end

/-- `reply_buf_limited`. -/
def replyBufLimited (buf : Bytes) (off : Int) (maxsize : Nat) : Bytes :=
  let off := (off % 2 ^ 64).toNat
  if off < buf.length then (buf.drop off).take (min (buf.length - off) maxsize) else []

/-- A request of the kernel. -/
inductive Request where
  | getattr (ino : Nat)
  | setattr (ino : Nat) (stSize : Int) (toSet : BitVec 32)
  | read (ino size : Nat) (off : Int)
  | write (ino : Nat) (data : Bytes) (off : Int)
  | create (parent : Nat) (name : Bytes)
  | mknod (parent : Nat) (name : Bytes)
  | mkdir (parent : Nat) (name : Bytes)
  | symlink (link : Bytes) (parent : Nat) (name : Bytes)
  | readlink (ino : Nat)
  | lookup (parent : Nat) (name : Bytes)
  | unlink (parent : Nat) (name : Bytes)
  | readdir (ino size : Nat) (off : Int)
  | open (ino : Nat)
  | statfs
  deriving DecidableEq

/-- `fuseserver_getattr`. -/
def getattr (ino : Nat) : ClientM Answer := do
  let (ret, st) ← Fuse.getattr ino
  if ret ≠ OK then pure (.err ENOENT)
  else pure (.reply (.attr st))

/-- `fuseserver_read`. -/
def read (ino size : Nat) (off : Int) : ClientM Answer := do
  let r ← (Op.read ino size off).prog
  if r.code = OK then pure (.buf r.bytes)
  else pure (.err ENOENT)

/-- `fuseserver_write`.  The reply has the size of the data, which `_write` returns in any case. -/
def write (ino : Nat) (data : Bytes) (off : Int) : ClientM Answer := do
  let r ← (Op.write ino off data).prog
  if r.code = OK then pure (.write data.length)
  else pure (.err ENOENT)

/-- The reply to a status that is not `OK`, in all handlers that make something. -/
def notMade (ret : Int) : Answer := if ret = EXIST then .err EEXIST else .err ENOENT

section

-- what is in a variable that has not been initialised
variable (junk : Nat)

/-- `fuseserver_createhelper`: the status if it is not `OK`, or `e.ino` and `e.attr`. -/
def createhelper (parent : Nat) (name : Bytes) (type : Nat) :
    ClientM (Except Int (Nat × Stat)) := do
  let r ← (if type = tFile then Op.create parent name junk else Op.mkdir parent name junk).prog
  if r.code ≠ OK then pure (.error r.code)
  else
    let (ret, st) ← Fuse.getattr r.inum
    if ret ≠ OK then pure (.error ret) else pure (.ok (r.inum, st))

/-- `fuseserver_create`. -/
def create (parent : Nat) (name : Bytes) : ClientM Answer := do
  match ← createhelper junk parent name tFile with
  | .ok e => pure (.create e.1 e.2)
  | .error ret => pure (notMade ret)

/-- `fuseserver_mknod`. -/
def mknod (parent : Nat) (name : Bytes) : ClientM Answer := do
  match ← createhelper junk parent name tFile with
  | .ok e => pure (.entry e.1 e.2)
  | .error ret => pure (notMade ret)

/-- `fuseserver_mkdir`. -/
def mkdir (parent : Nat) (name : Bytes) : ClientM Answer := do
  match ← createhelper junk parent name tDir with
  | .ok e => pure (.entry e.1 e.2)
  | .error ret => pure (notMade ret)

/-- `fuseserver_symlink`. -/
def symlink (link : Bytes) (parent : Nat) (name : Bytes) : ClientM Answer := do
  let r ← (Op.symlink parent name link junk).prog
  if r.code ≠ OK then pure (notMade r.code)
  else
    let (_, st) ← Fuse.getattr r.inum
    pure (.entry r.inum st)

/-- `fuseserver_lookup`: only `found` is looked at. -/
def lookup (parent : Nat) (name : Bytes) : ClientM Answer := do
  match ← (Op.lookup parent name junk).prog with
  | .found _ true ino =>
    let (_, st) ← Fuse.getattr ino
    pure (.entry ino st)
  | _ => pure (.err ENOENT)

end

/-- `fuseserver_readlink`. -/
def readlink (ino : Nat) : ClientM Answer := do
  let r ← (Op.readlink ino).prog
  if r.code ≠ OK then pure (.err ENOENT)
  else pure (.readlink (cStr r.bytes))

/-- `fuseserver_unlink`. -/
def unlink (parent : Nat) (name : Bytes) : ClientM Answer := do
  let r ← (Op.unlink parent name).prog
  if r.code = OK then pure (.err 0)
  else if r.code = NOENT then pure (.err ENOENT)
  else pure (.err ENOTEMPTY)

/-- `fuseserver_readdir`.  The status of `readdir` is not looked at. -/
def readdir (L : Libfuse) (ino size : Nat) (off : Int) : ClientM Answer := do
  if !(← isdir ino) then pure (.err ENOTDIR)
  else
    let r ← (Op.readdir ino).prog
    pure (.buf (replyBufLimited (dirbuf L r.ents) off size))

/-- What is executed for a request. -/
def Request.prog (L : Libfuse) (junk : Nat) : Request → ClientM Answer
  | .getattr ino => Fuseserver.getattr ino
  | .setattr ino stSize toSet => .reply <$> Fuse.setattr L ino stSize toSet
  | .read ino size off => Fuseserver.read ino size off
  | .write ino data off => Fuseserver.write ino data off
  | .create parent name => Fuseserver.create junk parent name
  | .mknod parent name => Fuseserver.mknod junk parent name
  | .mkdir parent name => Fuseserver.mkdir junk parent name
  | .symlink link parent name => Fuseserver.symlink junk link parent name
  | .readlink ino => Fuseserver.readlink ino
  | .lookup parent name => Fuseserver.lookup junk parent name
  | .unlink parent name => Fuseserver.unlink parent name
  | .readdir ino size off => Fuseserver.readdir L ino size off
  | .open _ => pure .opened
  | .statfs => pure (.statfs 512 255)

/-- A request, with the answers so far; `none` if there is no answer.  The commands are executed by
`h`. -/
def step {S : Type} (h : (c : Cmd) → S → Option (c.Ans × S)) (L : Libfuse) (junk : Nat)
    (s : S × List Answer) (req : Request) : Option (S × List Answer) :=
  match (req.prog L junk).eval h s.1 with
  | some (.ok a, s') => some (s', s.2 ++ [a])
  | _ => none

end Fuseserver

/-! ## What it is for -/

open Fuse Fuseserver

/-- What there is in a file system. -/
inductive Object where
  | file (data : Bytes)
  | dir (ents : List Dirent)
  | link (target : Bytes)
  deriving DecidableEq

/-- Its attributes. -/
def Object.stat (i : Nat) : Object → Stat
  | .file data => { ino := i, mode := modeFile, nlink := 1, size := data.length }
  | .dir _ => { ino := i, mode := modeDir, nlink := 2 }
  | .link target => { ino := i, mode := modeLink, nlink := 1, size := target.length }

/-- The number of bytes that it takes. -/
def Object.size : Object → Nat
  | .file data => data.length
  | .dir ents => (textAll ents).length
  | .link target => target.length

/-- What is listed of the entries of a directory: the names, as C strings, and the inode numbers. -/
def listed (ents : List Dirent) : List (Bytes × Nat) := ents.map fun e ↦ (cStr e.name, e.inum)

/-- Directory entries for the kernel. -/
def Libfuse.dirents (L : Libfuse) : Records (Bytes × Nat) UInt8 where
  size r := L.direntSize r.1.length
  put r off := L.addDirent r.1 r.2 off
  length_put r off := L.length_addDirent r.1 r.2 off

/-- A file system: what the inode numbers stand for. -/
abbrev Tree := Nat → Option Object

namespace Tree

/-- There is an empty directory. -/
def new : Tree := Function.update (fun _ ↦ none) 1 (some (.dir []))

/-- The number for the next object, if there is one left. -/
def fresh (t : Tree) : Option Nat := (List.range' 1 1022).find? fun i ↦ (t i).isNone

/-- Data is written over the contents of a file; a gap is filled with zeros. -/
def splice (old : Bytes) (off : Nat) (data : Bytes) : Bytes :=
  old.take off ++ List.replicate (off - old.length) 0 ++ data ++ old.drop (off + data.length)

/-- Whether a number stands for a directory. -/
def isDirectory (t : Tree) (i : Nat) : Bool :=
  match t i with
  | some (.dir _) => true
  | _ => false

/-- An object is made in a directory. -/
def make (t : Tree) (parent : Nat) (name : Bytes) (o : Object) (reply : Nat → Stat → Answer) :
    Option (Answer × Tree) :=
  match t parent with
  | some (.dir ents) =>
    if slash ∈ name then none
    else if name ∈ ents.map Dirent.name then some (.err EEXIST, t)
    else t.fresh.map fun i ↦ (reply i (o.stat i),
      Function.update (Function.update t i (some o)) parent (some (.dir (ents ++ [⟨name, i⟩]))))
  | _ => none

/-- How many bytes there are under an inode number. -/
def sizeAt (t : Tree) (i : Nat) : Nat := ((t i).map Object.size).getD 0

/-- What a request should answer and do, if there is room for it. -/
def respond (L : Libfuse) (t : Tree) : Request → Option (Answer × Tree)
  | .getattr ino => (t ino).map fun o ↦ (.reply (.attr (o.stat ino)), t)
  | .setattr ino stSize toSet =>
    match t ino with
    | some (.file data) =>
      if L.setAttrSize &&& toSet ≠ 0 then
        if 0 ≤ stSize then
          let o := Object.file (resize data stSize.toNat)
          some (.reply (.attr (o.stat ino)), Function.update t ino (some o))
        else none
      else if L.setAttrAtime &&& toSet = 0 ∧ L.setAttrMtime &&& toSet = 0 then some (.err ENOSYS, t)
      else none
    | _ => none
  | .read ino size off =>
    match t ino with
    | some (.file data) =>
      if 0 ≤ off then some (.buf ((data.drop off.toNat).take size), t) else none
    | _ => none
  | .write ino data off =>
    match t ino with
    | some (.file old) =>
      if 0 ≤ off then
        some (.write data.length, Function.update t ino (some (.file (splice old off.toNat data))))
      else none
    | _ => none
  | .create parent name => t.make parent name (.file []) .create
  | .mknod parent name => t.make parent name (.file []) .entry
  | .mkdir parent name => t.make parent name (.dir []) .entry
  | .symlink link parent name => t.make parent name (.link link) .entry
  | .readlink ino =>
    match t ino with
    | some (.link target) => some (.readlink (cStr target), t)
    | _ => none
  | .lookup parent name =>
    match t parent with
    | some (.dir ents) =>
      match ents.find? (·.name = name) with
      | some e => (t e.inum).map fun o ↦ (.entry e.inum (o.stat e.inum), t)
      | none => some (.err ENOENT, t)
    | some _ => some (.err ENOENT, t)
    | none => none
  | .unlink parent name =>
    match t parent with
    | some (.dir ents) =>
      match ents.find? (·.name = name) with
      | some e =>
        if t.isDirectory e.inum ∨ filename e.inum ∈ ents.map Dirent.name then none
        else some (.err 0, Function.update (Function.update t e.inum none) parent
          (some (.dir (ents.filter (·.name ≠ name)))))
      | none => some (.err ENOENT, t)
    | some _ => some (.err ENOENT, t)
    | none => none
  | .readdir ino size off =>
    match t ino with
    | some (.dir ents) =>
      if 0 ≤ off ∧ off < 2 ^ 63 then
        some (.buf (((L.dirents.layout 0 (listed ents)).drop off.toNat).take size), t)
      else none
    | some _ => some (.err ENOTDIR, t)
    | none => none
  | .open _ => some (.opened, t)
  | .statfs => some (.statfs 512 255, t)

/-- What a request should answer and do.  There must be room for all objects. -/
def serve (L : Libfuse) (t : Tree) (req : Request) : Option (Answer × Tree) :=
  (t.respond L req).bind fun r ↦ if Fitting r.2.sizeAt then some r else none

/-- A request, with the answers so far. -/
def step (L : Libfuse) (t : Tree × List Answer) (req : Request) : Option (Tree × List Answer) :=
  (t.1.serve L req).map fun r ↦ (r.2, t.2 ++ [r.1])

theorem of_serve {L : Libfuse} {t t' : Tree} {req : Request} {a : Answer}
    (h : t.serve L req = some (a, t')) : t.respond L req = some (a, t') ∧ Fitting t'.sizeAt := by
  obtain ⟨r, hr, he⟩ := Option.bind_eq_some_iff.1 h
  obtain ⟨hfit, he⟩ := Option.ite_none_right_eq_some.1 he
  obtain rfl := Option.some_inj.1 he
  exact ⟨hr, hfit⟩

end Tree

/-! ## The files as objects -/

/-- What a file of the extent server is. -/
def object (f : File) : Object :=
  if f.type = tDir then .dir (entries f) else if f.type = tFile then .file f.data else .link f.data

/-- The file system that is in the extent server. -/
def objects (σ : Store) : Tree := fun i ↦ (σ i).map object

variable {L : Libfuse} {σ σ' : Store} {i d : Nat} {f : File} {name data target : Bytes}
  {ents l₁ l₂ : List Dirent} {e : Dirent} {t' : Tree} {a : Answer}

theorem objects_eq (hf : σ i = some f) : objects σ i = some (object f) := by
  rw [objects, hf]
  rfl

theorem objects_update (j : Nat) (o : Option File) :
    objects (Function.update σ j o) = Function.update (objects σ) j (o.map object) := by
  funext k
  rw [objects, Function.update_apply, Function.update_apply]
  split <;> rfl

theorem object_of_dir (h : f.type = tDir) : object f = .dir (entries f) := if_pos h

theorem stat_object (f : File) : (object f).stat i = statOf i f := by
  rw [object, statOf]
  by_cases hdir : f.type = tDir
  · rw [if_pos hdir, if_neg (by rw [hdir]; decide), if_pos hdir]
    rfl
  · rw [if_neg hdir, if_neg hdir]
    split <;> rfl

theorem object_of_file (h : f.type = tFile) : object f = .file f.data := by
  rw [object, if_neg (by rw [h]; decide), if_pos h]

theorem object_eq_dir (h : object f = .dir ents) : f.type = tDir ∧ entries f = ents := by
  unfold object at h
  split at h
  · exact ⟨‹_›, Object.dir.inj h⟩
  · split at h <;> exact absurd h (by simp)

theorem object_eq_file (h : object f = .file data) : f.type = tFile ∧ f.data = data := by
  unfold object at h
  split at h
  · exact absurd h (by simp)
  · split at h
    · exact ⟨‹_›, Object.file.inj h⟩
    · exact absurd h (by simp)

theorem object_eq_link (h : object f = .link target) : f.data = target := by
  unfold object at h
  split at h
  · exact absurd h (by simp)
  · split at h
    · exact absurd h (by simp)
    · exact Object.link.inj h

theorem fresh_objects : (objects σ).fresh = σ.firstFree := by
  simp only [Tree.fresh, Store.firstFree, objects, Option.isNone_map]

theorem objects_init : objects Store.init = Tree.new := by
  rw [Store.init, objects_update, Tree.new]
  congr 1

/-! ## One request -/

/-- No lock is held. -/
def Free (held : Nat → Bool) : Prop := ∀ lid, held lid = false

/-- `getattr` finds out what an inode is. -/
theorem serves_stat (hf : σ i = some f) (hi : inumOf i = i) :
    Serves Free (Fuse.getattr i) σ (OK, (object f).stat i) σ := by
  rw [stat_object]
  exact serves_getattr (by rw [hi, hf]) fun _ h ↦ h i

theorem Held.written_eq_splice (off : Int) (hoff : 0 ≤ off) (old : Bytes) :
    Held.written old off data = Tree.splice old off.toNat data := by
  obtain ⟨n, rfl⟩ := Int.eq_ofNat_of_zero_le hoff
  rw [Held.written, Tree.splice, Int.toNat_natCast]
  split
  · rename_i hlt
    have hlen : old.length < n := by omega
    rw [resize, List.take_of_length_le hlen.le, List.take_of_length_le (by simp; omega),
      List.drop_eq_nil_of_le (by simp; omega), List.drop_eq_nil_of_le (by omega)]
  · rename_i hle
    have hlen : n ≤ old.length := by omega
    rw [Nat.sub_eq_zero_of_le hlen, List.replicate_zero, List.append_nil]

/-- The entries are laid out one after the other. -/
theorem dirbuf_eq (L : Libfuse) (ents : List Dirent) :
    dirbuf L ents = L.dirents.layout 0 (listed ents) := by
  have hfold : ∀ (ents : List Dirent) (b : Bytes),
      ents.foldl (fun b e ↦ dirbufAdd L b (cStr e.name) e.inum) b
        = b ++ L.dirents.layout b.length (listed ents) := by
    intro ents
    induction ents with
    | nil => exact fun b ↦ (List.append_nil b).symm
    | cons e ents ih =>
      intro b
      rw [List.foldl_cons, ih, dirbufAdd, List.length_append, L.length_addDirent,
        List.append_assoc]
      rfl
  exact hfold ents []

/-- What is sent is a piece of them. -/
theorem replyBufLimited_eq (buf : Bytes) {off : Int} (max : Nat) (hoff : 0 ≤ off ∧ off < 2 ^ 63) :
    replyBufLimited buf off max = (buf.drop off.toNat).take max := by
  have hmod : (off % 2 ^ 64).toNat = off.toNat := by omega
  rw [replyBufLimited, hmod]
  split
  · rw [← List.length_drop, Nat.min_comm, ← List.take_eq_take_min]
  · rw [List.drop_eq_nil_of_le (by omega), List.take_nil]

/-- Without the entry of a name. -/
theorem filter_ne_name (hnodup : ((l₁ ++ e :: l₂).map Dirent.name).Nodup) :
    (l₁ ++ e :: l₂).filter (·.name ≠ e.name) = l₁ ++ l₂ := by
  rw [List.map_append, List.map_cons, List.nodup_middle, List.nodup_cons,
    ← List.map_append] at hnodup
  have hkeep : (l₁ ++ l₂).filter (·.name ≠ e.name) = l₁ ++ l₂ := by
    refine List.filter_eq_self.2 fun c hc ↦ decide_eq_true fun heq ↦ hnodup.1 ?_
    rw [← heq]
    exact List.mem_map_of_mem hc
  rw [List.filter_append, List.filter_cons_of_neg (by simp), ← List.filter_append, hkeep]

/-- What is said about a request: the handler does it, and the file system stays tidy. -/
def Meets (σ : Store) (p : ClientM Answer) (a : Answer) (t' : Tree) : Prop :=
  ∃ σ', Serves Free p σ a σ' ∧ objects σ' = t' ∧ Tidy σ'

namespace Tidy

variable (h : Tidy σ)
include h

/-- A request that only reads. -/
theorem meets_of_serves {p : ClientM Answer} (hp : Serves Free p σ a σ) : Meets σ p a (objects σ) :=
  ⟨σ, hp, rfl, h⟩

theorem inumOf_of_some (hf : σ i = some f) : inumOf i = i := h.inumOf_eq (by rw [hf]; simp)

/-- There is room for the files if there is room for the objects. -/
theorem fits (hfit : Fitting (objects σ).sizeAt) : σ.Fits := by
  refine hfit.mono fun i _ ↦ ?_
  rw [Store.sizeAt, Tree.sizeAt, objects]
  cases hσ : σ i with
  | none => exact le_rfl
  | some f =>
    rw [Option.map_some, Option.map_some, Option.map_some, Option.getD_some,
      Option.getD_some, object]
    split
    · next htype => rw [Object.size, ← (h.encodes i f hσ htype).data]
    · split <;> exact le_rfl

/-- The contents of a file are replaced, and there is room for them. -/
theorem room_of_fits {buf : Bytes} (hf : σ i = some f)
    (hfits : Store.Fits (Function.update σ i (some { f with data := buf }))) :
    buf.length ≤ 81920 ∧
      Store.load (Function.update σ i (some { f with data := buf })) ≤ Store.capacity :=
  ⟨hfits.length_le (h.bound i (by rw [hf]; simp)) (Function.update_self ..), hfits.load_le⟩

/-- Something is made in a directory, or its name is there already. -/
theorem exists_make {op : Op} {o : Object} {reply : Nat → Stat → Answer} (hop : op.Makes d name)
    (ho : object op.newFile = o) (hs : (objects σ).make d name o reply = some (a, t'))
    (hfit : Fitting t'.sizeAt) :
    ∃ j σ', objects σ' = t' ∧ Tidy σ' ∧
      (Serves Free op.prog σ (.ino EXIST j) σ' ∧ a = .err EEXIST ∨
        Serves Free op.prog σ (.ino OK j) σ' ∧
          Serves Free (Fuse.getattr j) σ' (OK, o.stat j) σ' ∧ a = reply j (o.stat j)) := by
  unfold Tree.make at hs
  split at hs
  case h_2 => exact absurd hs (by simp)
  rename_i ents hd
  obtain ⟨f, hf, hobj⟩ := Option.map_eq_some_iff.1 hd
  obtain ⟨htype, rfl⟩ := object_eq_dir hobj
  have hdir : inumOf d = d := h.inumOf_of_some hf
  have hf' : σ (inumOf d) = some f := by rw [hdir, hf]
  have henc := h.encodes d f hf htype
  obtain ⟨hslash, hs⟩ := Option.ite_none_left_eq_some.1 hs
  by_cases hname : name ∈ (entries f).map Dirent.name
  · rw [if_pos hname] at hs
    obtain ⟨rfl, rfl⟩ := Prod.mk.inj (Option.some_inj.1 hs)
    obtain ⟨e, he, rfl⟩ := List.mem_map.1 hname
    exact ⟨e.inum, σ, rfl, h, Or.inl ⟨(henc.runs_makes_of_mem hf' he hop).serves
      (fun _ h ↦ h _) fun _ ↦ henc.always_makes_of_mem (fun h ↦ h) hf' he hop, rfl⟩⟩
  · rw [if_neg hname, fresh_objects] at hs
    obtain ⟨i, hi, he⟩ := Option.map_eq_some_iff.1 hs
    obtain ⟨rfl, rfl⟩ := Prod.mk.inj he
    have hne : d ≠ i := Held.ne_of_firstFree hi hf
    have hnew : op.newFile.type = tDir → op.newFile.data = [] := by
      obtain ⟨ino, rfl | rfl | ⟨link, rfl⟩⟩ := hop
      · exact fun _ ↦ rfl
      · exact fun _ ↦ rfl
      · exact fun ht ↦ absurd ht (by simp [Op.newFile])
    have htidy := h.entered hf htype hi hslash hname hnew
    have hat : Held.entered σ d f ⟨name, i⟩ op.newFile i = some op.newFile := by
      rw [Held.entered, Function.update_of_ne hne.symm, Function.update_self]
    have hlt : i < 2 ^ 64 := by
      have := (Store.firstFree_bounds hi).1
      omega
    have hobj : objects (Held.entered σ d f ⟨name, i⟩ op.newFile) = Function.update
        (Function.update (objects σ) i (some o)) d (some (.dir (entries f ++ [⟨name, i⟩]))) := by
      rw [Held.entered, objects_update, objects_update, Option.map_some, Option.map_some, ho]
      have henc' := henc.entered hslash hname hlt
      rw [object_of_dir henc'.type, henc'.entries_eq]
    have hrun : Serves Free op.prog σ (.ino OK i)
        (Held.entered σ (inumOf d) f ⟨name, i⟩ op.newFile) := by
      refine (henc.runs_makes hf' hop hname hi).serves (fun _ h ↦ h _) fun _ ↦ ?_
      refine henc.promised_makes hf' ?_ hop hname hi ?_
      · rw [hdir]
        exact h.bound d (by rw [hf]; simp)
      · rw [hdir]
        exact htidy.fits (hobj ▸ hfit)
    rw [hdir] at hrun
    refine ⟨i, _, hobj, htidy, Or.inr ⟨hrun, ?_, rfl⟩⟩
    rw [← ho]
    exact serves_stat hat (htidy.inumOf_of_some hat)

/-- A handler that calls `createhelper`. -/
theorem meets_createhelper {type : Nat} {reply : Nat → Stat → Answer} (junk : Nat)
    {g : Except Int (Nat × Stat) → ClientM Answer}
    (hok : ∀ e, g (.ok e) = .pure (reply e.1 e.2))
    (herror : ∀ ret, g (.error ret) = .pure (notMade ret)) (htype : type = tFile ∨ type = tDir)
    (hs : (objects σ).make d name (object ⟨type, []⟩) reply = some (a, t'))
    (hfit : Fitting t'.sizeAt) :
    Meets σ (createhelper junk d name type >>= g) a t' := by
  obtain ⟨op, hop, hnew, hprog⟩ : ∃ op : Op, op.Makes d name ∧ op.newFile = ⟨type, []⟩ ∧
      (if type = tFile then Op.create d name junk else Op.mkdir d name junk) = op := by
    rcases htype with rfl | rfl
    · exact ⟨_, ⟨junk, Or.inl rfl⟩, rfl, if_pos rfl⟩
    · exact ⟨_, ⟨junk, Or.inr (Or.inl rfl)⟩, rfl, if_neg (by decide)⟩
  obtain ⟨j, σ', ht, htidy, ⟨hserves, rfl⟩ | ⟨hserves, hattr, rfl⟩⟩ :=
    h.exists_make hop (congrArg object hnew) hs hfit
  · have hhelper : Serves Free (createhelper junk d name type) σ (.error EXIST) σ' := by
      rw [createhelper, hprog]
      exact hserves.bind (.pure _)
    refine ⟨σ', hhelper.bind ?_, ht, htidy⟩
    rw [herror]
    exact .pure _
  · have hhelper : Serves Free (createhelper junk d name type) σ
        (.ok (j, (object ⟨type, []⟩).stat j)) σ' := by
      rw [createhelper, hprog]
      exact hserves.bind (hattr.bind (.pure _))
    refine ⟨σ', hhelper.bind ?_, ht, htidy⟩
    rw [hok]
    exact .pure _

theorem meets_symlink {link : Bytes} (junk : Nat)
    (hs : (objects σ).make d name (.link link) .entry = some (a, t'))
    (hfit : Fitting t'.sizeAt) :
    Meets σ (Fuseserver.symlink junk link d name) a t' := by
  have hop : (Op.symlink d name link junk).Makes d name := ⟨junk, Or.inr (Or.inr ⟨link, rfl⟩)⟩
  obtain ⟨j, σ', ht, htidy, ⟨hserves, rfl⟩ | ⟨hserves, hattr, rfl⟩⟩ :=
    h.exists_make hop rfl hs hfit
  · exact ⟨σ', hserves.bind (.pure _), ht, htidy⟩
  · exact ⟨σ', hserves.bind (hattr.bind (.pure _)), ht, htidy⟩

/-- The contents of a file are replaced. -/
theorem objects_written (hf : σ i = some f) (htype : f.type = tFile) (data : Bytes) :
    objects (Function.update σ i (some { f with data := data })) =
        Function.update (objects σ) i (some (.file data)) ∧
      Tidy (Function.update σ i (some { f with data := data })) := by
  refine ⟨?_, h.written hf (by rw [htype]; decide) data⟩
  rw [objects_update, Option.map_some]
  exact congrArg (fun o ↦ Function.update (objects σ) i (some o)) (object_of_file htype)

/-- What is not a directory has no entries for `isdir`. -/
theorem isDir_eq_false {o : Object} (hd : objects σ d = some o) (ho : ∀ ents, o ≠ .dir ents) :
    isDir σ d = false := by
  obtain ⟨f, hf, rfl⟩ := Option.map_eq_some_iff.1 hd
  rw [isDir, h.inumOf_of_some hf, hf, Option.map_some, decide_eq_false_iff_not, Option.some_inj]
  exact fun htype ↦ ho _ (object_of_dir htype)

theorem live_of_objects {o : Object} (hd : objects σ d = some o) : ∃ f, σ (inumOf d) = some f := by
  obtain ⟨f, hf, -⟩ := Option.map_eq_some_iff.1 hd
  exact ⟨f, by rw [h.inumOf_of_some hf, hf]⟩

theorem exists_dir_of_objects (hd : objects σ d = some (.dir ents)) :
    ∃ f, σ d = some f ∧ σ (inumOf d) = some f ∧ f.type = tDir ∧ entries f = ents ∧
      Encodes f ents := by
  obtain ⟨f, hf, hobj⟩ := Option.map_eq_some_iff.1 hd
  obtain ⟨htype, rfl⟩ := object_eq_dir hobj
  exact ⟨f, hf, by rw [h.inumOf_of_some hf, hf], htype, rfl, h.encodes d f hf htype⟩

theorem exists_file_of_objects (hi : objects σ i = some (.file data)) :
    ∃ f, σ i = some f ∧ σ (inumOf i) = some f ∧ f.type = tFile ∧ f.data = data := by
  obtain ⟨f, hf, hobj⟩ := Option.map_eq_some_iff.1 hi
  obtain ⟨htype, rfl⟩ := object_eq_file hobj
  exact ⟨f, hf, by rw [h.inumOf_of_some hf, hf], htype, rfl⟩

theorem meets_setattr {stSize : Int} {toSet : BitVec 32}
    (hs : (objects σ).respond L (.setattr i stSize toSet) = some (a, t'))
    (hfit : Fitting t'.sizeAt) : Meets σ (.reply <$> Fuse.setattr L i stSize toSet) a t' := by
  rw [Tree.respond] at hs
  split at hs
  case h_2 => exact absurd hs (by simp)
  rename_i data hi
  obtain ⟨f, hf, hf', htype, rfl⟩ := h.exists_file_of_objects hi
  by_cases hsize : L.setAttrSize &&& toSet = 0
  · rw [if_neg (not_not.2 hsize)] at hs
    obtain ⟨⟨hatime, hmtime⟩, hs⟩ := Option.ite_none_right_eq_some.1 hs
    obtain ⟨rfl, rfl⟩ := Prod.mk.inj (Option.some_inj.1 hs)
    rw [setattr_of_mask (attrs_and_eq_zero_iff.2 ⟨hsize, hatime, hmtime⟩)]
    exact h.meets_of_serves (.pure _)
  · rw [if_pos hsize] at hs
    obtain ⟨hnonneg, hs⟩ := Option.ite_none_right_eq_some.1 hs
    obtain ⟨rfl, rfl⟩ := Prod.mk.inj (Option.some_inj.1 hs)
    obtain ⟨hobj, htidy⟩ := h.objects_written hf htype (resize f.data stSize.toNat)
    obtain ⟨hlen, hload⟩ := h.room_of_fits hf (htidy.fits (hobj ▸ hfit))
    rw [length_resize] at hlen
    have hi := h.inumOf_of_some hf
    have hset : Serves Free (Fuse.setattr L i stSize toSet) σ _ _ :=
      serves_setattr hf' (fun _ h ↦ h i)
        (fun hzero ↦ hsize (attrs_and_eq_zero_iff.1 hzero).1) hnonneg hlen (by rw [hi]; exact hload)
    rw [hi, ← stat_object, object_of_file (f := { f with data := resize f.data stSize.toNat })
      htype]
      at hset
    exact ⟨_, hset.map _, hobj, htidy⟩

theorem meets_lookup (junk : Nat)
    (hs : (objects σ).respond L (.lookup d name) = some (a, t')) :
    Meets σ (Fuseserver.lookup junk d name) a t' := by
  have hprom : ∀ {o : Object}, objects σ d = some o → ∀ held,
      (Op.lookup d name junk).body.Always handler Promised ⟨σ, held⟩ := fun hd _ ↦ by
    obtain ⟨g, hg⟩ := h.live_of_objects hd
    exact (Held.always_lookup (fun h ↦ h) hg).map _
  rw [Tree.respond] at hs
  split at hs
  · rename_i ents hd
    obtain ⟨f, hf, hf', htype, rfl, henc⟩ := h.exists_dir_of_objects hd
    have hrun := (Op.runs_lookup (henc.runs_lookup hf' name junk)).serves (F := Free)
      (fun _ h ↦ h _) (hprom hd)
    rw [Held.lookupIn] at hrun
    split at hs
    · rename_i e he
      rw [he] at hrun
      obtain ⟨o, ho, hpair⟩ := Option.map_eq_some_iff.1 hs
      obtain ⟨rfl, rfl⟩ := Prod.mk.inj hpair
      obtain ⟨g, hg, rfl⟩ := Option.map_eq_some_iff.1 ho
      have hattr := serves_stat hg (h.inumOf_of_some hg)
      exact h.meets_of_serves (hrun.bind (hattr.bind (.pure _)))
    · rename_i he
      rw [he] at hrun
      obtain ⟨rfl, rfl⟩ := Prod.mk.inj (Option.some_inj.1 hs)
      exact h.meets_of_serves (hrun.bind (.pure _))
  · rename_i o hne hd
    obtain ⟨rfl, rfl⟩ := Prod.mk.inj (Option.some_inj.1 hs)
    have hrun : Runs (Op.lookup d name junk).body σ _ σ :=
      Op.runs_lookup (Held.runs_lookup_of_not_isDir (h.isDir_eq_false hd hne))
    exact h.meets_of_serves ((hrun.serves (fun _ h ↦ h _) (hprom hd)).bind (.pure _))
  · exact absurd hs (by simp)

theorem meets_unlink (hs : (objects σ).respond L (.unlink d name) = some (a, t'))
    (hfit : Fitting t'.sizeAt) : Meets σ (Fuseserver.unlink d name) a t' := by
  rw [Tree.respond] at hs
  split at hs
  · rename_i ents hd
    obtain ⟨f, hf, hf', htype, rfl, henc⟩ := h.exists_dir_of_objects hd
    split at hs
    · rename_i e he
      obtain rfl : e.name = name := by simpa using List.find?_some he
      have hmem : e ∈ entries f := List.mem_of_find?_eq_some he
      obtain ⟨hnot, hs⟩ := Option.ite_none_left_eq_some.1 hs
      obtain ⟨hnotDir, hfile⟩ := not_or.1 hnot
      obtain ⟨rfl, rfl⟩ := Prod.mk.inj (Option.some_inj.1 hs)
      have hlive : σ e.inum ≠ none := h.tree.live_tgt d e (by rw [entriesOf_eq hf]; exact hmem)
      obtain ⟨g, hg⟩ := Option.ne_none_iff_exists'.1 hlive
      have hnotDir := h.isDir_eq_false (objects_eq hg) fun ents heq ↦ hnotDir (by
        rw [Tree.isDirectory, objects_eq hg, heq])
      obtain ⟨l₁, l₂, hsplit, hleaf, hne, hpos, hrun⟩ := h.exists_unlink hf' htype hmem hnotDir
        fun c hc heq ↦ hfile (heq ▸ List.mem_map_of_mem hc)
      have henc' : Encodes f (l₁ ++ e :: l₂) := hsplit ▸ henc
      have htidy := h.erased hf htype hsplit hleaf
      have hobj : objects (Function.update (Function.update σ e.inum none) d
            (some { f with data := textAll (l₁ ++ l₂) }))
          = Function.update (Function.update (objects σ) e.inum none) d
            (some (.dir ((entries f).filter (·.name ≠ e.name)))) := by
        rw [objects_update, objects_update, Option.map_none, Option.map_some,
          object_of_dir henc'.erased.type, henc'.erased.entries_eq, hsplit,
          filter_ne_name henc'.nodup]
      have hprom : ∀ held, (Op.unlink d e.name).body.Always handler Promised ⟨σ, held⟩ := by
        refine fun _ ↦ henc'.promised_unlink hf' ?_ (by rw [h.inumOf_of_some hg, hg]) hne hpos ?_
        · rw [h.inumOf_of_some hf]
          exact h.bound d (by rw [hf]; simp)
        · rw [h.inumOf_of_some hf, h.inumOf_of_some hg]
          exact htidy.fits (hobj ▸ hfit)
      rw [h.inumOf_of_some hf] at hrun
      exact ⟨_, (hrun.serves (fun _ h ↦ h _) hprom).bind (.pure _), hobj, htidy⟩
    · rename_i he
      obtain ⟨rfl, rfl⟩ := Prod.mk.inj (Option.some_inj.1 hs)
      have hname : name ∉ (entries f).map Dirent.name := by
        intro hname
        obtain ⟨e, hmem, rfl⟩ := List.mem_map.1 hname
        exact absurd (List.find?_eq_none.1 he e hmem) (by simp)
      have hl := henc.runs_lookup hf' name 0
      rw [lookupIn_of_notMem hname] at hl
      exact h.meets_of_serves (((henc.runs_unlink_of_notMem hf' hname).serves (fun _ h ↦ h _)
        fun _ ↦ (Held.always_unlink_of_not_found hf' hl).map _).bind (.pure _))
  · rename_i o hne hd
    obtain ⟨rfl, rfl⟩ := Prod.mk.inj (Option.some_inj.1 hs)
    have hnot := h.isDir_eq_false hd hne
    have hrun : Runs (Op.unlink d name).body σ _ σ := Op.runs_unlink_of_not_isDir hnot
    obtain ⟨g, hg⟩ := h.live_of_objects hd
    exact h.meets_of_serves ((hrun.serves (fun _ h ↦ h _)
      fun _ ↦ (Held.always_unlink_of_not_found hg
      (Held.runs_lookup_of_not_isDir hnot)).map _).bind (.pure _))
  · exact absurd hs (by simp)

theorem meets_readdir {size : Nat} {off : Int}
    (hs : (objects σ).respond L (.readdir d size off) = some (a, t')) :
    Meets σ (Fuseserver.readdir L d size off) a t' := by
  have hisdir : ∀ {o : Object}, objects σ d = some o → Serves Free (isdir d) σ (isDir σ d) σ := by
    intro o hd
    obtain ⟨g, hg⟩ := h.live_of_objects hd
    exact Held.runs_isdir.serves_locked (fun _ h ↦ h d) fun _ ↦ Held.always_isdir (fun h ↦ h) hg
  rw [Tree.respond] at hs
  split at hs
  · rename_i ents hd
    obtain ⟨hoff, hs⟩ := Option.ite_none_right_eq_some.1 hs
    obtain ⟨rfl, rfl⟩ := Prod.mk.inj (Option.some_inj.1 hs)
    obtain ⟨f, hf, hf', htype, rfl, henc⟩ := h.exists_dir_of_objects hd
    have hisdir := hisdir hd
    rw [henc.isDir_eq hf'] at hisdir
    have hrun := (Op.runs_readdir (henc.parseDir_eq hf')).serves (F := Free) (fun _ h ↦ h _)
      fun _ ↦ (Held.always_readdir (fun h ↦ h) hf').map _
    rw [← dirbuf_eq, ← replyBufLimited_eq _ _ hoff]
    exact h.meets_of_serves (hisdir.bind (hrun.bind (.pure _)))
  · rename_i o hne hd
    obtain ⟨rfl, rfl⟩ := Prod.mk.inj (Option.some_inj.1 hs)
    have hisdir := hisdir hd
    rw [h.isDir_eq_false hd hne] at hisdir
    exact h.meets_of_serves (hisdir.bind (.pure _))
  · exact absurd hs (by simp)

/-- **A handler does what the file system is for.** -/
theorem meets (junk : Nat) (req : Request) (hs : (objects σ).serve L req = some (a, t')) :
    Meets σ (req.prog L junk) a t' := by
  obtain ⟨hs, hfit⟩ := Tree.of_serve hs
  cases req with
  | getattr ino =>
    obtain ⟨o, ho, he⟩ := Option.map_eq_some_iff.1 hs
    obtain ⟨rfl, rfl⟩ := Prod.mk.inj he
    obtain ⟨f, hf, rfl⟩ := Option.map_eq_some_iff.1 ho
    exact h.meets_of_serves ((serves_stat hf (h.inumOf_of_some hf)).bind (.pure _))
  | setattr ino stSize toSet => exact h.meets_setattr hs hfit
  | read ino size off =>
    rw [Tree.respond] at hs
    split at hs
    case h_2 => exact absurd hs (by simp)
    rename_i data hi
    obtain ⟨f, hf, hf', htype, rfl⟩ := h.exists_file_of_objects hi
    obtain ⟨hoff, hs⟩ := Option.ite_none_right_eq_some.1 hs
    obtain ⟨rfl, rfl⟩ := Prod.mk.inj (Option.some_inj.1 hs)
    have hlen := (h.fits hfit).length_le (h.bound ino (by rw [hf]; simp)) hf
    have hrun : Runs (Op.read ino size off).body σ _ σ :=
      (Held.runs_read size hf' (hlen.trans_lt (by decide)) hoff).map _
    exact h.meets_of_serves ((hrun.serves (fun _ h ↦ h _) fun _ ↦
      (Held.always_read hf').map _).bind (.pure _))
  | write ino data off =>
    rw [Tree.respond] at hs
    split at hs
    case h_2 => exact absurd hs (by simp)
    rename_i old hi
    obtain ⟨f, hf, hf', htype, rfl⟩ := h.exists_file_of_objects hi
    obtain ⟨hoff, hs⟩ := Option.ite_none_right_eq_some.1 hs
    obtain ⟨rfl, rfl⟩ := Prod.mk.inj (Option.some_inj.1 hs)
    obtain ⟨hobj, htidy⟩ := h.objects_written hf htype (Tree.splice f.data off.toNat data)
    obtain ⟨hlen, hload⟩ := h.room_of_fits hf (htidy.fits (hobj ▸ hfit))
    have hrun : Serves Free (Op.write ino off data).prog σ _ _ :=
      (Op.runs_write hf' hoff).serves (fun _ h ↦ h _) fun _ ↦ (Held.always_write hf'
        (by rw [Held.written_eq_splice off hoff]; exact hlen)
        (by rw [Held.written_eq_splice off hoff, h.inumOf_of_some hf]; exact hload)).map _
    rw [Held.written_eq_splice off hoff, h.inumOf_of_some hf] at hrun
    exact ⟨_, hrun.bind (.pure _), hobj, htidy⟩
  | create parent name =>
    exact h.meets_createhelper junk (fun _ ↦ rfl) (fun _ ↦ rfl) (Or.inl rfl) hs hfit
  | mknod parent name =>
    exact h.meets_createhelper junk (fun _ ↦ rfl) (fun _ ↦ rfl) (Or.inl rfl) hs hfit
  | mkdir parent name =>
    exact h.meets_createhelper junk (fun _ ↦ rfl) (fun _ ↦ rfl) (Or.inr rfl) hs hfit
  | symlink link parent name => exact h.meets_symlink junk hs hfit
  | readlink ino =>
    rw [Tree.respond] at hs
    split at hs
    case h_2 => exact absurd hs (by simp)
    rename_i target hi
    obtain ⟨rfl, rfl⟩ := Prod.mk.inj (Option.some_inj.1 hs)
    obtain ⟨f, hf, hobj⟩ := Option.map_eq_some_iff.1 hi
    have hf' : σ (inumOf ino) = some f := by rw [h.inumOf_of_some hf, hf]
    have hdata : dataAt σ ino = target := by rw [dataAt_eq hf', object_eq_link hobj]
    have hrun : Runs (Op.readlink ino).body σ (.ok (.data OK (dataAt σ ino))) σ :=
      Held.runs_readlink.map _
    rw [hdata] at hrun
    exact h.meets_of_serves ((hrun.serves (fun _ h ↦ h _) fun _ ↦
      (Held.always_readlink (fun h ↦ h) hf').map _).bind (.pure _))
  | lookup parent name => exact h.meets_lookup junk hs
  | unlink parent name => exact h.meets_unlink hs hfit
  | readdir ino size off => exact h.meets_readdir hs
  | «open» ino =>
    obtain ⟨rfl, rfl⟩ := Prod.mk.inj (Option.some_inj.1 hs)
    exact h.meets_of_serves (.pure _)
  | statfs =>
    obtain ⟨rfl, rfl⟩ := Prod.mk.inj (Option.some_inj.1 hs)
    exact h.meets_of_serves (.pure _)

end Tidy

/-! ## All requests -/

/-- The extent server has this file system, the same answers have been given, and no lock is
held. -/
structure Mounted (t : Tree × List Answer) (s : State × List Answer) : Prop where
  objects : objects s.1.files = t.1
  answers : s.2 = t.2
  held : s.1.held = fun _ ↦ false
  tidy : Tidy s.1.files

theorem mounted_new : Mounted (Tree.new, []) (newDisk, []) where
  objects := objects_init
  answers := rfl
  held := rfl
  tidy := tidy_init

theorem Mounted.step {t t' : Tree × List Answer} {s : State × List Answer} {req : Request}
    (h : Mounted t s) (junk : Nat) (hs : Tree.step L t req = some t') :
    (req.prog L junk).Always handler Promised s.1 ∧
      ∃ s', Fuseserver.step handler L junk s req = some s' ∧ Mounted t' s' := by
  obtain ⟨⟨a, t₁⟩, hserve, rfl⟩ := Option.map_eq_some_iff.1 hs
  rw [← h.objects] at hserve
  obtain ⟨σ', hserves, hobj, htidy⟩ := h.tidy.meets junk req hserve
  have hfree : s.1 = ⟨s.1.files, fun _ ↦ false⟩ := by rw [← h.held]
  have heval := hserves.eval (fun _ ↦ false) fun _ ↦ rfl
  rw [hfree]
  refine ⟨hserves.promised _ fun _ ↦ rfl, (⟨σ', fun _ ↦ false⟩, s.2 ++ [a]), ?_, hobj,
    by rw [h.answers], rfl, htidy⟩
  rw [Fuseserver.step, hfree, heval]

/-- **The mounted file system is a file system**, as far as the files in the extent server are a
map: if requests make sense one after the other, then all of them are answered, with the answers
that they should have, and all that the extent server is asked for is within its promise. -/
theorem mounted_run (L : Libfuse) (junk : Nat) {run : List Request} {t : Tree × List Answer}
    (hrun : run.foldlM (Tree.step L) (Tree.new, []) = some t) :
    Along (Fuseserver.step handler L junk)
        (fun s req ↦ (req.prog L junk).Always handler Promised s.1) (newDisk, []) run ∧
      ∃ s, run.foldlM (Fuseserver.step handler L junk) (newDisk, []) = some s ∧ Mounted t s :=
  run_lockstep _ (fun _ _ _ _ h _ hs ↦ h.step junk hs) run _ _ _ (along_true _ _) mounted_new hrun

end Client
end Yfs
