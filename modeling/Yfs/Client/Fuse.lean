import Yfs.Client.Promise

/-!
# Setting attributes through FUSE

`fuseserver_setattr` is told by a mask which attributes to set.  Of the three that it knows, size
and the two times, it can set one: it calls `yfs_client::setattr`, which sets the size, whichever of
the three bits is in the mask.  So a change of the times is a truncation to whatever happens to be
in `st_size`, and it keeps the contents only if that is the length they have (`setattr_iff`).  If a
size is set, it must not be negative, and there must be room for that many bytes on the disk.

After that it looks at the attributes with the `getattr` of `fuse.cc`, to have something to reply;
these calls acquire and release the lock of the inode one after the other and change nothing.

The flags of the mask and the layout of a directory entry are defined by libfuse, which is not a
part of the repository.  All results are for any flags and any layout (`Libfuse`).
-/

set_option autoImplicit false

namespace Yfs
namespace Client

open Machine
open Extent (Attr Env File Rep Store cost inumOf tDir tFile)
open Status

/-- `yfs_client::IOERR`. -/
abbrev Status.IOERR : Int := 3

/-! ## Attributes -/

/-- `yfs_client::fileinfo`. -/
structure FileInfo where
  size : Nat
  atime : Nat
  mtime : Nat
  ctime : Nat
  deriving DecidableEq

/-- `yfs_client::dirinfo`. -/
structure DirInfo where
  atime : Nat
  mtime : Nat
  ctime : Nat
  deriving DecidableEq

namespace Held

/-- `_isfile`. -/
def isfile (inum : Nat) : ClientM Bool := do
  match ← Prog.ask (Cmd.getattr inum) with
  | .error _ => pure false
  | .ok a => pure (a.type = tFile)

/-- `_getfile`: the status if it is not `OK`, or the information. -/
def getfile (inum : Nat) : ClientM (Except Int FileInfo) := do
  match ← Prog.ask (Cmd.getattr inum) with
  | .error _ => pure (.error IOERR)
  | .ok a => pure (.ok ⟨a.size, a.atime, a.mtime, a.ctime⟩)

/-- `_getdir`. -/
def getdir (inum : Nat) : ClientM (Except Int DirInfo) := do
  match ← Prog.ask (Cmd.getattr inum) with
  | .error _ => pure (.error IOERR)
  | .ok a => pure (.ok ⟨a.atime, a.mtime, a.ctime⟩)

end Held

/-- `isfile`. -/
def isfile (inum : Nat) : ClientM Bool := locked inum (Held.isfile inum)

/-- `isdir`. -/
def isdir (inum : Nat) : ClientM Bool := locked inum (Held.isdir inum)

/-- `getfile`. -/
def getfile (inum : Nat) : ClientM (Except Int FileInfo) := locked inum (Held.getfile inum)

/-- `getdir`. -/
def getdir (inum : Nat) : ClientM (Except Int DirInfo) := locked inum (Held.getdir inum)

/-! ## FUSE -/

/-- What `fuse.cc` takes from libfuse, and not all that is known about it: the flags of a mask are
different bits, and a directory entry for the kernel has the size that it is said to have. -/
structure Libfuse where
  /-- `FUSE_SET_ATTR_SIZE`. -/
  setAttrSize : BitVec 32
  /-- `FUSE_SET_ATTR_ATIME`. -/
  setAttrAtime : BitVec 32
  /-- `FUSE_SET_ATTR_MTIME`. -/
  setAttrMtime : BitVec 32
  ne_zero : setAttrSize ≠ 0 ∧ setAttrAtime ≠ 0 ∧ setAttrMtime ≠ 0
  disjoint : setAttrSize &&& setAttrAtime = 0 ∧ setAttrSize &&& setAttrMtime = 0 ∧
    setAttrAtime &&& setAttrMtime = 0
  /-- `fuse_dirent_size`, for a name of this length. -/
  direntSize : Nat → Nat
  /-- What `fuse_add_dirent` writes for a name, an inode number and the position of the next
  entry. -/
  addDirent : Bytes → Nat → Nat → Bytes
  length_addDirent : ∀ name ino off, (addDirent name ino off).length = direntSize name.length

/-- `FUSE_SET_ATTR_SIZE | FUSE_SET_ATTR_ATIME | FUSE_SET_ATTR_MTIME`. -/
def Libfuse.attrs (L : Libfuse) : BitVec 32 := L.setAttrSize ||| L.setAttrAtime ||| L.setAttrMtime

/-- A `Libfuse` for the examples: entries are three bytes and the name. -/
def Libfuse.sample : Libfuse where
  setAttrSize := 1
  setAttrAtime := 2
  setAttrMtime := 4
  ne_zero := by decide
  disjoint := by decide
  direntSize len := len + 3
  addDirent name ino off := .ofNat name.length :: .ofNat ino :: .ofNat off :: name
  length_addDirent _ _ _ := rfl

namespace Fuse

/-- `struct stat`, as far as `fuse.cc` fills it in; the rest is zero. -/
structure Stat where
  ino : Nat
  mode : Nat := 0
  nlink : Nat := 0
  atime : Nat := 0
  mtime : Nat := 0
  ctime : Nat := 0
  size : Nat := 0
  deriving DecidableEq

/-- `S_IFREG | 0666`. -/
abbrev modeFile : Nat := 0o100666
/-- `S_IFDIR | 0777`. -/
abbrev modeDir : Nat := 0o040777
/-- `S_IFLNK | 0777`. -/
abbrev modeLink : Nat := 0o120777

/-- What `getattr` makes of the information about a file or a symbolic link. -/
def ofFile (inum mode : Nat) : Except Int FileInfo → Int × Stat
  | .error r => (r, { ino := inum })
  | .ok info => (OK, ⟨inum, mode, 1, info.atime, info.mtime, info.ctime, info.size⟩)

/-- What `getattr` makes of the information about a directory. -/
def ofDir (inum : Nat) : Except Int DirInfo → Int × Stat
  | .error r => (r, { ino := inum })
  | .ok info => (OK, ⟨inum, modeDir, 2, info.atime, info.mtime, info.ctime, 0⟩)

/-- `getattr`: the status and `st`.  The first `isfile` is in the arguments of a `printf`. -/
def getattr (inum : Nat) : ClientM (Int × Stat) := do
  let _ ← isfile inum
  if ← isfile inum then
    ofFile inum modeFile <$> getfile inum
  else if ← isdir inum then
    ofDir inum <$> getdir inum
  else
    ofFile inum modeLink <$> getfile inum

/-- `ENOSYS`. -/
abbrev ENOSYS : Nat := 38

/-- A reply to the kernel. -/
inductive Reply where
  /-- `fuse_reply_attr`. -/
  | attr (st : Stat)
  /-- `fuse_reply_err`. -/
  | err (errno : Nat)
  deriving DecidableEq

/-- `fuseserver_setattr`.  The mask is tested twice; the status of neither call is looked at.  The
`off_t` in `st_size` becomes a `size_t`. -/
def setattr (L : Libfuse) (ino : Nat) (stSize : Int) (toSet : BitVec 32) : ClientM Reply := do
  if L.attrs &&& toSet ≠ 0 then
    if L.attrs &&& toSet ≠ 0 then
      let _ ← (Op.setattr ino (stSize % 2 ^ 64).toNat).prog
    let (_, st) ← getattr ino
    pure (.attr st)
  else
    pure (.err ENOSYS)

end Fuse

/-! ## What is executed with locks free -/

variable {α β : Type} {σ σ₁ σ' : Store} {n : Node} {inum : Nat} {f : File} {held : Nat → Bool}
  {F : (Nat → Bool) → Prop}

/-- Executed alone, with such locks held, the program returns this and leaves these files, and the
locks as they were.  All its requests are within the promise of the extent server. -/
structure Serves (F : (Nat → Bool) → Prop) (p : ClientM α) (σ : Store) (a : α) (σ' : Store) :
    Prop where
  eval : ∀ held, F held → p.eval handler ⟨σ, held⟩ = some (.ok a, ⟨σ', held⟩)
  promised : ∀ held, F held → p.Always handler Promised ⟨σ, held⟩

namespace Serves

theorem pure (a : α) : Serves F (.pure a) σ a σ := ⟨fun _ _ ↦ rfl, fun _ _ ↦ trivial⟩

theorem bind {p : ClientM α} {g : α → ClientM β} {a : α} {b : β} (hp : Serves F p σ a σ₁)
    (hg : Serves F (g a) σ₁ b σ') : Serves F (p >>= g) σ b σ' := by
  refine ⟨fun held hF ↦ ?_, fun held hF ↦ (hp.promised held hF).bind fun a' s he ↦ ?_⟩
  · rw [Prog.eval_bind, hp.eval held hF]
    exact hg.eval held hF
  · obtain ⟨ha, rfl⟩ := Prod.mk.inj (Option.some_inj.1 ((hp.eval held hF).symm.trans he))
    obtain rfl := Except.ok.inj ha
    exact hg.promised held hF

theorem map {p : ClientM α} {a : α} (g : α → β) (hp : Serves F p σ a σ') :
    Serves F (g <$> p) σ (g a) σ' :=
  hp.bind (pure (g a))

end Serves

/-- What is done under a lock. -/
theorem Runs.serves_locked {p : ClientM α} {a : α} (h : Runs p σ (.ok a) σ')
    (hF : ∀ held, F held → held inum = false)
    (hprom : ∀ held, p.Always handler Promised ⟨σ, held⟩) :
    Serves F (Client.locked inum p) σ a σ' :=
  ⟨fun held hheld ↦ h.locked (hF held hheld), fun _ _ ↦ always_locked
    (fun _ _ _ hq ↦ absurd hq (by simp [Cmd.request]))
    (fun _ _ _ hq ↦ absurd hq (by simp [Cmd.request])) hprom⟩

theorem Runs.serves {op : Op} {r : Result} (h : Runs op.body σ (.ok r) σ')
    (hF : ∀ held, F held → held op.target = false)
    (hprom : ∀ held, op.body.Always handler Promised ⟨σ, held⟩) : Serves F op.prog σ r σ' :=
  h.serves_locked hF hprom

/-- A way to execute commands on a node that does what the map does, within the promise. -/
def Faithful (g : (c : Cmd) → Node → Option (c.Ans × Node)) : Prop :=
  ∀ ⦃c : Cmd⦄ ⦃s : State⦄ ⦃n : Node⦄ ⦃a : c.Ans⦄ ⦃s' : State⦄, Promised c s → n.Holds s →
    handler c s = some (a, s') → ∃ b n', g c n = some (b, n') ∧ c.Same a b ∧ n'.Holds s'

theorem faithful_step (envs : Nat → Env) : Faithful (Node.step envs) :=
  fun _ _ _ _ _ hP hn hc ↦ Node.step_of_handler envs hP hn hc

theorem Serves.exists_eval {g : (c : Cmd) → Node → Option (c.Ans × Node)} {p : ClientM α} {a : α}
    {O : α → α → Prop} (h : Serves F p σ a σ') (hg : Faithful g)
    (hrel : Prog.Related Cmd.Same O p p) (hn : n.Holds ⟨σ, held⟩) (hF : F held) :
    ∃ b n', p.eval g n = some (.ok b, n') ∧ O a b ∧ n'.Holds ⟨σ', held⟩ :=
  Prog.eval_related (h := handler) (P := Promised) (Q := fun s (n : Node) ↦ n.Holds s)
    (fun hP hn hc ↦ hg hP hn hc) hrel (h.promised held hF) hn (h.eval held hF)

/-! ## Time stamps

What `getattr` returns has the time stamps in it that the extent server has sent.  Nothing else
depends on them. -/

/-- Attributes without the time stamps. -/
def Fuse.Stat.untimed (st : Fuse.Stat) : Fuse.Stat := { st with atime := 0, mtime := 0, ctime := 0 }

section

variable {O : α → α → Prop}

theorem related_locked {p p' : ClientM α} (hp : Prog.Related Cmd.Same O p p') :
    Prog.Related Cmd.Same O (locked inum p) (locked inum p') :=
  .ask_bind fun _ _ _ ↦ hp.bind fun _ _ hab ↦ .ask_bind fun _ _ _ ↦ .pure hab

theorem related_getattr {g : Except Int Attr → ClientM α}
    (herror : ∀ e, Prog.Related Cmd.Same O (g (.error e)) (g (.error e)))
    (hok : ∀ a b : Attr, a.type = b.type → a.size = b.size →
      Prog.Related Cmd.Same O (g (.ok a)) (g (.ok b))) :
    Prog.Related Cmd.Same O (Prog.ask (Cmd.getattr inum) >>= g)
      (Prog.ask (Cmd.getattr inum) >>= g) := by
  refine .ask_bind fun a b hab ↦ ?_
  rcases a with e | a <;> rcases b with e' | b
  · obtain rfl := Except.error.inj hab
    exact herror e
  · exact absurd hab (by simp [Cmd.Same, Cmd.untimed])
  · exact absurd hab (by simp [Cmd.Same, Cmd.untimed])
  · have hattr : ({ type := a.type, size := a.size } : Attr) = { type := b.type, size := b.size } :=
      Except.ok.inj hab
    obtain ⟨htype, -, -, -, hsize⟩ := Attr.mk.inj hattr
    exact hok a b htype hsize

/-- After a call of `yfs_client`, there is nothing but its result to look at. -/
theorem related_op (op : Op) {g : Result → ClientM α}
    (hg : ∀ r, Prog.Related Cmd.Same O (g r) (g r)) :
    Prog.Related Cmd.Same O (op.prog >>= g) (op.prog >>= g) :=
  op.respects.related_bind hg

end

namespace Fuse

/-- The status, and the attributes without the time stamps. -/
def SameStat (x y : Int × Stat) : Prop := x.1 = y.1 ∧ x.2.untimed = y.2.untimed

/-- A reply without the time stamps. -/
def Reply.untimed : Reply → Reply
  | .attr st => .attr st.untimed
  | .err errno => .err errno

theorem related_isfile : Prog.Related Cmd.Same Eq (isfile inum) (isfile inum) :=
  related_locked (related_getattr (fun _ ↦ .pure rfl) fun a b htype _ ↦ .pure (by rw [htype]))

theorem related_isdir : Prog.Related Cmd.Same Eq (isdir inum) (isdir inum) :=
  related_locked (related_getattr (fun _ ↦ .pure rfl) fun a b htype _ ↦ .pure (by rw [htype]))

theorem related_file (mode : Nat) : Prog.Related Cmd.Same SameStat
    (ofFile inum mode <$> getfile inum) (ofFile inum mode <$> getfile inum) := by
  have hinfo : Prog.Related Cmd.Same (fun x y ↦ SameStat (ofFile inum mode x) (ofFile inum mode y))
      (getfile inum) (getfile inum) :=
    related_locked (related_getattr (fun _ ↦ .pure ⟨rfl, rfl⟩) fun a b _ hsize ↦ .pure
      ⟨rfl, by simp only [ofFile, Stat.untimed, hsize]⟩)
  exact hinfo.bind fun _ _ hab ↦ .pure hab

theorem related_dir : Prog.Related Cmd.Same SameStat
    (ofDir inum <$> getdir inum) (ofDir inum <$> getdir inum) := by
  have hinfo : Prog.Related Cmd.Same (fun x y ↦ SameStat (ofDir inum x) (ofDir inum y))
      (getdir inum) (getdir inum) :=
    related_locked (related_getattr (fun _ ↦ .pure ⟨rfl, rfl⟩) fun a b _ _ ↦ .pure ⟨rfl, rfl⟩)
  exact hinfo.bind fun _ _ hab ↦ .pure hab

/-- `getattr` passes the time stamps on. -/
theorem related_attr : Prog.Related Cmd.Same SameStat (Fuse.getattr inum) (Fuse.getattr inum) := by
  refine related_isfile.bind fun _ _ _ ↦ related_isfile.bind fun b b' hb ↦ ?_
  subst hb
  split
  · exact related_file modeFile
  · refine related_isdir.bind fun c c' hc ↦ ?_
    subst hc
    split
    · exact related_dir
    · exact related_file modeLink

/-- And so does `fuseserver_setattr`. -/
theorem related_setattr (L : Libfuse) (stSize : Int) (toSet : BitVec 32) :
    Prog.Related Cmd.Same (fun x y ↦ x.untimed = y.untimed) (setattr L inum stSize toSet)
      (setattr L inum stSize toSet) := by
  by_cases hmask : L.attrs &&& toSet = 0
  · rw [Fuse.setattr, if_neg (not_not.2 hmask)]
    exact .pure rfl
  · rw [Fuse.setattr, if_pos hmask, if_pos hmask]
    refine related_op _ fun _ ↦ related_attr.bind fun x y hxy ↦ .pure ?_
    exact congrArg Reply.attr hxy.2

/-! ## What is returned -/

/-- The attributes of a file. -/
def statOf (i : Nat) (f : File) : Stat :=
  if f.type = tFile then { ino := i, mode := modeFile, nlink := 1, size := f.data.length }
  else if f.type = tDir then { ino := i, mode := modeDir, nlink := 2 }
  else { ino := i, mode := modeLink, nlink := 1, size := f.data.length }

/-- **`getattr` finds out what an inode is**, and changes nothing. -/
theorem serves_getattr (hf : σ (inumOf inum) = some f) (hF : ∀ held, F held → held inum = false) :
    Serves F (Fuse.getattr inum) σ (OK, statOf inum f) σ := by
  have hattr : Runs (Prog.ask (Cmd.getattr inum)) σ
      (.ok (.ok { type := f.type, size := f.data.length })) σ := by
    have h : Runs (Prog.ask (Cmd.getattr inum)) σ _ σ := runs_getattr
    rw [hf] at h
    exact h
  have hserves : ∀ {α : Type} {g : Except Int Attr → ClientM α} {b : α},
      g (.ok { type := f.type, size := f.data.length }) = .pure b →
      Serves F (Client.locked inum (Prog.ask (Cmd.getattr inum) >>= g)) σ b σ := by
    intro α g b hg
    refine Runs.serves_locked (hattr.bind (by rw [hg]; exact .pure b)) hF fun held ↦ ?_
    refine hattr.always_bind ⟨promised_getattr hf, fun _ _ _ ↦ trivial⟩ fun a ha ↦ ?_
    rw [← Except.ok.inj ha, hg]
    trivial
  have hisfile : Serves F (isfile inum) σ (decide (f.type = tFile)) σ := hserves rfl
  have hisdir : Serves F (isdir inum) σ (decide (f.type = tDir)) σ := hserves rfl
  have hfile : Serves F (getfile inum) σ (.ok ⟨f.data.length, 0, 0, 0⟩) σ := hserves rfl
  have hdir : Serves F (getdir inum) σ (.ok ⟨0, 0, 0⟩) σ := hserves rfl
  refine hisfile.bind (hisfile.bind ?_)
  rw [statOf]
  by_cases htype : f.type = tFile
  · rw [if_pos (decide_eq_true htype), if_pos htype]
    exact hfile.bind (.pure _)
  · rw [if_neg (by simpa using htype), if_neg htype]
    refine hisdir.bind ?_
    by_cases htype' : f.type = tDir
    · rw [if_pos (decide_eq_true htype'), if_pos htype']
      exact hdir.bind (.pure _)
    · rw [if_neg (by simpa using htype'), if_neg htype']
      exact hfile.bind (.pure _)

section

variable {L : Libfuse} {stSize : Int} {toSet : BitVec 32}

/-- A mask with one of the three bits: the contents are resized. -/
theorem serves_setattr (hf : σ (inumOf inum) = some f)
    (hF : ∀ held, F held → held inum = false) (hmask : L.attrs &&& toSet ≠ 0) (hsize : 0 ≤ stSize)
    (hle : stSize.toNat ≤ 81920)
    (hload : Store.load (Function.update σ (inumOf inum)
      (some { f with data := resize f.data stSize.toNat })) ≤ Store.capacity) :
    Serves F (setattr L inum stSize toSet) σ
      (.attr (statOf inum { f with data := resize f.data stSize.toNat }))
      (Function.update σ (inumOf inum) (some { f with data := resize f.data stSize.toNat })) := by
  have hnat : (stSize % 2 ^ 64).toNat = stSize.toNat := by omega
  rw [setattr, if_pos hmask, if_pos hmask, hnat]
  have hset : Serves F (Op.setattr inum stSize.toNat).prog σ (.status OK) _ :=
    (Op.runs_setattr hf (by omega)).serves hF fun _ ↦
      (Held.always_setattr hf ((length_resize ..).trans_le hle) hload).map _
  exact hset.bind ((serves_getattr (Function.update_self ..) hF).bind (.pure _))

/-- A mask without them: nothing happens. -/
theorem setattr_of_mask (hmask : L.attrs &&& toSet = 0) :
    setattr L inum stSize toSet = pure (.err ENOSYS) := by
  rw [setattr, if_neg (not_not.2 hmask)]

/-- A mask is without the three bits if it is without each of them. -/
theorem attrs_and_eq_zero_iff : L.attrs &&& toSet = 0 ↔ L.setAttrSize &&& toSet = 0 ∧
    L.setAttrAtime &&& toSet = 0 ∧ L.setAttrMtime &&& toSet = 0 := by
  rw [Libfuse.attrs, BitVec.and_or_distrib_right, BitVec.and_or_distrib_right, ← and_assoc]
  exact BitVec.or_eq_zero_iff.trans (and_congr_left' BitVec.or_eq_zero_iff)

/-! ## The contents on the disk -/

/-- The inode says that the file has this length. -/
def Says (i size : Nat) (n : Node) : Prop :=
  i < 1024 ∧ (n.disk.inode i).type ≠ 0 ∧ (n.disk.inode i).size = size

/-- Whether or not there is room for the contents, the inode then has their length. -/
theorem exists_eval_setattr (envs : Nat → Env) {size : Nat} (hn : n.Holds ⟨σ, held⟩)
    (hfree : held inum = false) (hf : σ (inumOf inum) = some f) (hsize : size ≤ 81920) :
    ∃ r n', (Op.setattr inum size).prog.eval (Node.step envs) n = some (.ok r, n') ∧
      Says (inumOf inum) size n' := by
  have hacquire : handler (.acquire inum) ⟨σ, held⟩
      = some ((), ⟨σ, Function.update held inum true⟩) := by
    rw [handler, if_neg]
    simp only [hfree, Bool.false_eq_true, not_false_eq_true]
  obtain ⟨⟨⟩, n₁, h₁, -, hn₁⟩ := Node.step_of_handler envs
    (fun q hq ↦ absurd hq (by simp [Cmd.request])) hn hacquire
  obtain ⟨b, n₂, h₂, hb, hn₂⟩ := Node.step_of_handler envs (promised_get hf) hn₁ (handler_get hf)
  obtain rfl : b = .ok f.data := hb.symm
  obtain ⟨hi, hlive, hold⟩ := hn₂.files.live hf
  obtain ⟨d, hx, htype, hlen⟩ := Extent.exec_writeFile_any (envs n₂.served) hi hlive hold
    (show (resize f.data size).length ≤ 81920 from (length_resize ..).trans_le hsize)
  have h₃ : n₂.step envs (.put inum (resize f.data size))
      = some (.ok (), { n₂ with disk := d, served := n₂.served + 1 }) := by
    have hserve : Extent.exec (Extent.serve (envs n₂.served) (.put inum (resize f.data size)))
        n₂.disk = .ok (.ok, d) := Extent.exec_map _ (Extent.exec_map _ hx)
    rw [Node.step, Node.serve, Node.respond, hserve]
    rfl
  have hbody : (Op.setattr inum size).body.eval (Node.step envs) n₁
      = some (.ok (.status OK), { n₂ with disk := d, served := n₂.served + 1 }) := by
    refine Prog.eval_bind_eq_ok.2 ⟨OK, _, Prog.eval_ask_bind_eq_ok.2 ⟨_, n₂, h₂, ?_⟩, rfl⟩
    simp only [if_neg (show ¬ 2 ^ 63 ≤ size by omega)]
    exact Prog.eval_ask_bind_eq_ok.2 ⟨_, _, h₃, rfl⟩
  refine ⟨.status OK, _, Prog.eval_ask_bind_eq_ok.2 ⟨_, n₁, h₁, Prog.eval_bind_eq_ok.2
    ⟨_, _, hbody, Prog.eval_ask_bind_eq_ok.2 ⟨(), _, rfl, rfl⟩⟩⟩, hi, ?_, ?_⟩
  · exact htype ▸ hlive
  · exact hlen.trans (length_resize ..)

/-- The commands of `getattr`. -/
def Looks (i : Nat) : Cmd → Prop
  | .getattr id => inumOf id = i
  | .acquire _ | .release _ => True
  | _ => False

theorem Says.step {envs : Nat → Env} {i size : Nat} {c : Cmd} {a : c.Ans} {n' : Node}
    (hc : Looks i c) (h : Says i size n) (hs : n.step envs c = some (a, n')) : Says i size n' := by
  cases c with
  | acquire lid =>
    obtain ⟨-, he⟩ := Option.ite_none_left_eq_some.1 hs
    obtain ⟨-, rfl⟩ := Prod.mk.inj (Option.some_inj.1 he)
    exact h
  | release lid =>
    obtain ⟨-, rfl⟩ := Prod.mk.inj (Option.some_inj.1 hs)
    exact h
  | getattr id =>
    obtain rfl : inumOf id = i := hc
    have hserve := Extent.exec_map Extent.Ret.reply
      (Extent.exec_map Extent.Ret.attr (Extent.exec_getattr_live h.1 h.2.1))
    rw [Node.step, Node.serve, Node.respond, Extent.serve, Extent.Request.call, Extent.perform,
      hserve] at hs
    obtain ⟨-, rfl⟩ := Prod.mk.inj (Option.some_inj.1 hs)
    exact h
  | create type => exact absurd hc (by simp [Looks])
  | get id => exact absurd hc (by simp [Looks])
  | put id buf => exact absurd hc (by simp [Looks])
  | remove id => exact absurd hc (by simp [Looks])

/-- `getattr` changes nothing, whatever is on the disk. -/
theorem Says.getattr {envs : Nat → Env} {size : Nat} {o : Except Fault (Int × Stat)} {n' : Node}
    (h : Says (inumOf inum) size n)
    (he : (Fuse.getattr inum).eval (Node.step envs) n = some (o, n')) :
    Says (inumOf inum) size n' := by
  have hlook : ∀ {α : Type} {g : Except Int Attr → ClientM α} {n : Node},
      (∀ a, ∃ b, g a = .pure b) → (Client.locked inum (Prog.ask (Cmd.getattr inum) >>= g)).Always
        (Node.step envs) (fun c _ ↦ Looks (inumOf inum) c) n := by
    intro α g n hg
    refine Prog.always_ask_bind trivial fun _ _ _ ↦ Prog.Always.bind
      (Prog.always_ask_bind (rfl : inumOf inum = inumOf inum) fun a _ _ ↦ ?_) fun _ _ _ ↦
        Prog.always_ask_bind trivial fun _ _ _ ↦ trivial
    obtain ⟨b, hb⟩ := hg a
    rw [hb]
    trivial
  have hgetfile : ∀ {n : Node}, (getfile inum).Always (Node.step envs)
      (fun c _ ↦ Looks (inumOf inum) c) n := hlook fun a ↦ by rcases a with e | a <;> exact ⟨_, rfl⟩
  have hgetdir : ∀ {n : Node}, (getdir inum).Always (Node.step envs)
      (fun c _ ↦ Looks (inumOf inum) c) n := hlook fun a ↦ by rcases a with e | a <;> exact ⟨_, rfl⟩
  have hisfile : ∀ {n : Node}, (isfile inum).Always (Node.step envs)
      (fun c _ ↦ Looks (inumOf inum) c) n := hlook fun a ↦ by rcases a with e | a <;> exact ⟨_, rfl⟩
  have hisdir : ∀ {n : Node}, (isdir inum).Always (Node.step envs)
      (fun c _ ↦ Looks (inumOf inum) c) n := hlook fun a ↦ by rcases a with e | a <;> exact ⟨_, rfl⟩
  have hall : (Fuse.getattr inum).Always (Node.step envs) (fun c _ ↦ Looks (inumOf inum) c) n := by
    refine hisfile.bind fun _ _ _ ↦ hisfile.bind fun b _ _ ↦ ?_
    split
    · exact hgetfile.map _
    · refine hisdir.bind fun b _ _ ↦ ?_
      split
      · exact hgetdir.map _
      · exact hgetfile.map _
  exact Prog.Always.eval_induction (h := Node.step envs) (I := Says (inumOf inum) size)
    (fun hc hn hs ↦ hn.step hc hs) hall h he

/-! ## What it does -/

/-- What setting attributes should do to the contents of a file: they are resized if the mask says
so, and are not touched otherwise.  Afterwards the disk holds these contents and the other files,
and the locks are what they were. -/
def Sets (L : Libfuse) (envs : Nat → Env) (n : Node) (σ : Store) (ino : Nat) (f : File)
    (stSize : Int) (toSet : BitVec 32) : Prop :=
  ∃ r n', (setattr L ino stSize toSet).eval (Node.step envs) n = some (.ok r, n') ∧
    n'.Holds ⟨Function.update σ (inumOf ino) (some { f with
      data := if L.setAttrSize &&& toSet ≠ 0 then resize f.data stSize.toNat else f.data }), n.held⟩

section

variable {envs : Nat → Env} {r : Reply} {n' : Node} (hn : n.Holds ⟨σ, held⟩)
  (hfree : held inum = false) (hf : σ (inumOf inum) = some f) (hmask : L.attrs &&& toSet ≠ 0)
  (he : (setattr L inum stSize toSet).eval (Node.step envs) n = some (.ok r, n'))
include hn hfree hf hmask he

/-- No string has a negative length. -/
theorem nonneg_of_setattr (hlow : -2 ^ 63 ≤ stSize) : 0 ≤ stSize := by
  by_contra hneg
  rw [setattr, if_pos hmask, if_pos hmask] at he
  obtain ⟨r', n₁, hset, -⟩ := Prog.eval_bind_eq_ok.1 he
  have hlong : 2 ^ 63 ≤ (stSize % 2 ^ 64).toNat := by omega
  have halways : ∀ held', (Op.setattr inum (stSize % 2 ^ 64).toNat).body.Always handler Promised
      ⟨σ, held'⟩ := by
    refine fun held' ↦ (always_get (fun h ↦ h) hf ?_).map _
    dsimp only
    rw [if_pos hlong]
    trivial
  obtain ⟨n₂, hthrow, -⟩ := Op.eval_node envs (Op.always_prog halways) hn
    ((Op.runs_setattr_of_long hlong).prog_error hfree)
  exact absurd (Prod.mk.inj (Option.some_inj.1 (hset.symm.trans hthrow))).1 (by simp)

/-- No file has more than 81920 bytes. -/
theorem le_of_setattr (hsize : 0 ≤ stSize) (hhigh : stSize < 2 ^ 31) : stSize.toNat ≤ 81920 := by
  by_contra hlong
  have hnat : (stSize % 2 ^ 64).toNat = stSize.toNat := by omega
  rw [setattr, if_pos hmask, if_pos hmask, hnat] at he
  obtain ⟨r', n₁, hset, -⟩ := Prog.eval_bind_eq_ok.1 he
  have hfatal : ∀ held', Fatal (.put inum (resize f.data stSize.toNat)) ⟨σ, held'⟩ := fun held' ↦
    ⟨inum, _, f, rfl, hf, by rw [length_resize]; exact not_le.1 hlong,
      by rw [length_resize]; omega⟩
  have hnone : (Op.setattr inum stSize.toNat).prog.eval (Node.step envs) n = none := by
    refine Op.eval_of_fatal envs hn hfree (fun held' ↦ ?_) ?_
      (hfatal (Function.update held inum true))
    · refine (always_get Or.inl hf ?_).map _
      dsimp only
      rw [if_neg (by omega)]
      refine Prog.always_ask_bind (Or.inr (hfatal held')) fun a s _ ↦ ?_
      rcases a with e | ⟨⟩ <;> trivial
    · have hcomes : ∃ m k, Prog.Issues handler m (Held.setattr inum stSize.toNat)
          ⟨σ, Function.update held inum true⟩ (.put inum (resize f.data stSize.toNat)) k
          ⟨σ, Function.update held inum true⟩ := by
        refine runs_get.issues_bind ?_
        rw [dataAt_eq hf]
        dsimp only
        rw [if_neg (by omega)]
        exact ⟨0, _, .here _ _ _⟩
      obtain ⟨m, k, hk⟩ := hcomes
      exact ⟨m, _, hk.bind _⟩
  exact absurd (hset.symm.trans hnone) (by simp)

/-- The contents have the length that has been asked for. -/
theorem says_of_setattr (hsize : 0 ≤ stSize) (hle : stSize.toNat ≤ 81920) :
    Says (inumOf inum) stSize.toNat n' := by
  have hnat : (stSize % 2 ^ 64).toNat = stSize.toNat := by omega
  rw [setattr, if_pos hmask, if_pos hmask, hnat] at he
  obtain ⟨r₁, n₁, hset, hsaid⟩ := exists_eval_setattr envs hn hfree hf hle
  obtain ⟨r₂, n₂, hset', hrest⟩ := Prog.eval_bind_eq_ok.1 he
  obtain ⟨-, rfl⟩ := Prod.mk.inj (Option.some_inj.1 (hset.symm.trans hset'))
  obtain ⟨x, n₃, hget, hpure⟩ := Prog.eval_bind_eq_ok.1 hrest
  obtain ⟨-, rfl⟩ := Prod.mk.inj (Option.some_inj.1 hpure)
  exact hsaid.getattr hget

end

end

/-- **A change of the times keeps the contents** if and only if there is no such change, or the size
is set with it, or the size in the request is the one that the file has; and if a size is set, there
must be room for it. -/
theorem setattr_iff (L : Libfuse) (envs : Nat → Env) (n : Node) (σ : Store) (hrep : Rep n.disk σ)
    (ino : Nat) (f : File) (hf : σ (inumOf ino) = some f) (hfree : n.held ino = false)
    (stSize : Int) (hlow : -2 ^ 63 ≤ stSize) (hhigh : stSize < 2 ^ 31) (toSet : BitVec 32) :
    Sets L envs n σ ino f stSize toSet ↔
      (L.setAttrSize &&& toSet = 0 ∧ L.setAttrAtime &&& toSet = 0 ∧ L.setAttrMtime &&& toSet = 0) ∨
      (L.setAttrSize &&& toSet ≠ 0 ∨ stSize = f.data.length) ∧ 0 ≤ stSize ∧
        Room n.disk (inumOf ino) stSize.toNat := by
  have hn : n.Holds ⟨σ, n.held⟩ := ⟨hrep, rfl⟩
  by_cases hmask : L.attrs &&& toSet = 0
  · have hbits := attrs_and_eq_zero_iff.1 hmask
    refine iff_of_true ⟨.err ENOSYS, n, ?_, ?_⟩ (Or.inl hbits)
    · rw [setattr_of_mask hmask]
      rfl
    · rw [if_neg (not_not.2 hbits.1)]
      simpa only [← hf, Function.update_eq_self] using hn
  · have hor : ¬(L.setAttrSize &&& toSet = 0 ∧ L.setAttrAtime &&& toSet = 0 ∧
        L.setAttrMtime &&& toSet = 0) := fun hbits ↦ hmask (attrs_and_eq_zero_iff.2 hbits)
    rw [or_iff_right hor]
    constructor
    · rintro ⟨r, n', he, hn'⟩
      have hsize := nonneg_of_setattr hn hfree hf hmask he hlow
      have hle := le_of_setattr hn hfree hf hmask he hsize hhigh
      by_cases hbit : L.setAttrSize &&& toSet = 0
      · -- the disk holds the old contents, and the inode says how long they are
        rw [if_neg (not_not.2 hbit)] at hn'
        have hsaid := says_of_setattr hn hfree hf hmask he hsize hle
        have hold := (hn'.files.file _ f (Function.update_self ..)).size
        have hlen : stSize = f.data.length := by
          rw [← hold, hsaid.2.2]
          omega
        refine ⟨Or.inr hlen, hsize, hle, ?_⟩
        have hroom : cost f.data.length ≤ _ := (hrep.load_le_iff hf).1 hn'.files.fits.load_le
        rwa [show f.data.length = stSize.toNat by omega] at hroom
      · rw [if_pos hbit] at hn'
        have hroom := (hrep.load_le_iff hf).1 hn'.files.fits.load_le
        rw [length_resize] at hroom
        exact ⟨Or.inl hbit, hsize, hle, hroom⟩
    · rintro ⟨hcase, hsize, hroom⟩
      have hdata : (if L.setAttrSize &&& toSet ≠ 0 then resize f.data stSize.toNat else f.data)
          = resize f.data stSize.toNat := by
        split
        · rfl
        · next hbit => rw [hcase.resolve_left hbit, Int.toNat_natCast, resize_eq_self_iff.2 rfl]
      have hload : Store.load (Function.update σ (inumOf ino)
          (some { f with data := resize f.data stSize.toNat })) ≤ Store.capacity := by
        rw [hrep.load_le_iff hf, length_resize]
        exact hroom.2
      obtain ⟨r, n', he, -, hn'⟩ := (serves_setattr (F := fun held ↦ held ino = false) hf
        (fun _ h ↦ h) hmask hsize hroom.1 hload).exists_eval (faithful_step envs)
        (related_setattr L stSize toSet) hn hfree
      refine ⟨r, n', he, ?_⟩
      rw [hdata]
      exact hn'

/-- A file of one byte is cut off as it should be. -/
theorem setattr_cuts : ∃ d, Rep d (Store.filled [97] 1) ∧
    Sets .sample (fun _ ↦ default) ⟨d, fun _ ↦ false, 0⟩ (Store.filled [97] 1) 2 ⟨tFile, [97]⟩ 0
      Libfuse.sample.setAttrSize := by
  obtain ⟨calls, d, hs⟩ := Extent.exists_session_filled [97] 1 (by decide) (by decide) (by decide)
  have hcost : cost 0 = 0 := by decide
  have hroom : Room d (inumOf 2) (Int.toNat 0) := by
    rw [Int.toNat_zero, Room, hcost]
    exact ⟨Nat.zero_le _, Nat.zero_le _⟩
  have hbit : Libfuse.sample.setAttrSize &&& Libfuse.sample.setAttrSize ≠ 0 := by decide
  exact ⟨d, hs.rep, (setattr_iff .sample (fun _ ↦ default) ⟨d, fun _ ↦ false, 0⟩
    (Store.filled [97] 1) hs.rep 2 ⟨tFile, [97]⟩ rfl rfl 0 (by decide) (by decide)
    Libfuse.sample.setAttrSize).2 (Or.inr ⟨Or.inl hbit, le_rfl, hroom⟩)⟩

/-- **The file is emptied when its time is set**, whatever the flags are. -/
theorem touched_is_emptied : ∃ d, Rep d (Store.filled [97] 1) ∧ ∀ L : Libfuse,
    ¬ Sets L (fun _ ↦ default) ⟨d, fun _ ↦ false, 0⟩ (Store.filled [97] 1) 2 ⟨tFile, [97]⟩ 0
      L.setAttrMtime := by
  obtain ⟨calls, d, hs⟩ := Extent.exists_session_filled [97] 1 (by decide) (by decide) (by decide)
  refine ⟨d, hs.rep, fun L ↦ ?_⟩
  rintro ⟨r, n', he, hn'⟩
  have hf : Store.filled [97] 1 (inumOf 2) = some ⟨tFile, [97]⟩ := rfl
  have hmask : L.attrs &&& L.setAttrMtime ≠ 0 := fun hzero ↦ by
    have hself := (attrs_and_eq_zero_iff.1 hzero).2.2
    rw [BitVec.and_self] at hself
    exact L.ne_zero.2.2 hself
  rw [if_neg (not_not.2 L.disjoint.2.1)] at hn'
  have hn : (⟨d, fun _ ↦ false, 0⟩ : Node).Holds ⟨Store.filled [97] 1, fun _ ↦ false⟩ :=
    ⟨hs.rep, rfl⟩
  have hsaid := says_of_setattr hn rfl hf hmask he le_rfl (Nat.zero_le _)
  have hold := (hn'.files.file _ ⟨tFile, [97]⟩ (Function.update_self ..)).size
  exact absurd (hsaid.2.2.symm.trans hold) (by decide)

end Fuse

end Client
end Yfs
