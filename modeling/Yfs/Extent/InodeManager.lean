import Yfs.Extent.BlockManager

/-!
# Files

`inode_manager`.  A file is an inode with up to 32 direct blocks and, behind one indirect block, up
to 128 more.  The loops of the source walk over these numbers with an index that starts at 0; here
they are recursions over the list of the numbers themselves, and the running position in the file is
the length of what has been read, or of what is left to write.

Two things that a call depends on are not on the disk: the time, and whatever happens to be in the
buffers that the source does not initialise.  Both come in through `Env`.  The source dereferences
the result of `get_inode` without a test in two places, and indexes the indirect table without one
in three; those are faults.
-/

set_option autoImplicit false

namespace Yfs
namespace Extent

open Machine

/-- What a call finds in the machine that executes it. -/
structure Env where
  /-- `std::time(0)`. -/
  now : Nat
  /-- The contents of an uninitialised buffer on the stack. -/
  stack : Block
  /-- The contents of memory fresh from `malloc`. -/
  heap : Nat → UInt8

instance : Inhabited Env := ⟨⟨0, .zero, fun _ ↦ 0⟩⟩

/-! ## Inodes -/

/-- `inode_manager::get_inode`: `none` for a number out of range and for a free inode. -/
def getInode (inum : Nat) : DiskM (Option Inode) :=
  if inum ≥ inodeNum then pure none
  else do
    let buf ← readBlock (iblock inum) .zero
    let ino := Inode.read buf
    if ino.type = 0 then pure none else pure (some ino)

/-- `inode_manager::put_inode`. -/
def putInode (inum : Nat) (ino : Inode) : DiskM Unit := do
  let buf ← readBlock (iblock inum) .zero
  writeBlock (iblock inum) (ino.write buf)

/-- The loop of `alloc_inode`.  When it ends without a free inode the function returns 1. -/
def allocInodeScan (env : Env) (type : Nat) : List Nat → DiskM Nat
  | [] => pure 1
  | inum :: rest => do
    let buf ← readBlock (iblock inum) .zero
    let ino := Inode.read buf
    if ino.type = 0 then
      writeBlock (iblock inum) ({ ino with type := type, ctime := env.now }.write buf)
      pure inum
    else allocInodeScan env type rest

/-- `inode_manager::alloc_inode`. -/
def allocInode (env : Env) (type : Nat) : DiskM Nat :=
  allocInodeScan env type (List.range' 1 (inodeNum - 1))

/-- An inode after `memset(inode, 0, sizeof(inode_t))`. -/
def Inode.zero : Inode := ⟨0, 0, 0, 0, 0, Vector.replicate _ 0⟩

/-- `inode_manager::free_inode`. -/
def freeInode (inum : Nat) : DiskM Unit := do
  match ← getInode inum with
  | none => .throw .nullInode
  | some ino => if ino.type = 0 then pure () else putInode inum .zero

/-! ## Reading -/

/-- A loop of `read_file` over some of a file's blocks; `res` is what has been read so far. -/
def readBlocks (env : Env) (fsize : Nat) : List Nat → List UInt8 → DiskM (List UInt8)
  | [], res => pure res
  | b :: bs, res =>
    if res.length < fsize then
      if res.length + blockSize < fsize then do
        let blk ← readBlock b (.gen fun i ↦ env.heap (res.length + i))
        readBlocks env fsize bs (res ++ blk.toList)
      else do
        let blk ← readBlock b env.stack
        readBlocks env fsize bs (res ++ blk.toList.take (fsize - res.length))
    else pure res

/-- The second half of the reading in `read_file`. -/
def readIndirect (env : Env) (ino : Inode) (res : List UInt8) : DiskM (List UInt8) :=
  if res.length < ino.size then do
    let indnum ← readBlock (ino.block ndirect) env.stack
    readBlocks env ino.size indnum.words res
  else pure res

/-- `inode_manager::read_file`; `none` if it returns without having set its results.  Bytes that no
loop has reached are as `malloc` has left them. -/
def readFile (env : Env) (inum : Nat) : DiskM (Option (List UInt8)) := do
  match ← getInode inum with
  | none => pure none
  | some ino =>
    let res ← readBlocks env ino.size (ino.blocks.toList.take ndirect) []
    let res ← readIndirect env ino res
    putInode inum { ino with atime := env.now, ctime := env.now }
    pure (some (res ++ (List.range' res.length (ino.size - res.length)).map env.heap))

/-! ## Freeing and allocating the blocks of a file -/

/-- `free_block` for each of some blocks. -/
def freeBlocks : List Nat → DiskM Unit
  | [] => pure ()
  | b :: bs => do
    freeBlock b
    freeBlocks bs

/-- Free a file's direct blocks. -/
def freeDirect (ino : Inode) : DiskM Unit :=
  freeBlocks (ino.blocks.toList.take (min (blocks ino.size) ndirect))

/-- Free the blocks in a file's indirect table, and the indirect block. -/
def freeIndirect (env : Env) (ino : Inode) : DiskM Unit :=
  if blocks ino.size > ndirect then do
    let indnum ← readBlock (ino.block ndirect) env.stack
    freeBlocks (indnum.words.take (blocks ino.size - ndirect))
    if blocks ino.size - ndirect > nindirect then .throw .indexOut
    else freeBlock (ino.block ndirect)
  else pure ()

/-- `alloc_block`, `n` times. -/
def allocBlocks : Nat → DiskM (List Nat)
  | 0 => pure []
  | n + 1 => do
    let b ← allocBlock
    let bs ← allocBlocks n
    pure (b :: bs)

/-- Set the first direct blocks of an inode. -/
def Inode.setDirect (ino : Inode) (bs : List Nat) : Inode :=
  { ino with blocks := Vector.ofFn fun k ↦ bs.getD k (ino.block k) }

/-- Set the indirect block of an inode. -/
def Inode.setIndirect (ino : Inode) (b : Nat) : Inode :=
  { ino with blocks := ino.blocks.set ndirect b }

/-- The middle part of `write_file`: new blocks for `nsize` blocks of contents. -/
def allocContents (ino : Inode) (nsize : Nat) : DiskM Inode := do
  let direct ← allocBlocks (min nsize ndirect)
  let ino := ino.setDirect direct
  if nsize > ndirect then do
    let ind ← allocBlock
    let table ← allocBlocks (min (nsize - ndirect) (nindirect + 1))
    if nsize - ndirect > nindirect then .throw .indexOut
    else do
      writeBlock ind (.ofWords table)
      pure (ino.setIndirect ind)
  else pure ino

/-! ## Writing -/

/-- One block of contents.  The last one goes through the buffer `block`, whose end it does not
fill. -/
def writeChunk (block : Block) (b : Nat) (rest : List UInt8) : DiskM Unit :=
  if rest.length > blockSize then writeBlock b (Block.zero.patch (rest.take blockSize))
  else writeBlock b (block.patch rest)

/-- A loop of `write_file` over some of a file's blocks; returns what is left to write. -/
def writeBlocks (block : Block) : List Nat → List UInt8 → DiskM (List UInt8)
  | [], rest => pure rest
  | b :: bs, rest =>
    if rest.length > 0 then do
      writeChunk block b rest
      writeBlocks block bs (rest.drop blockSize)
    else pure rest

/-- The last part of `write_file`, but for the inode. -/
def writeContents (env : Env) (ino : Inode) (buf : List UInt8) : DiskM Unit := do
  let rest ← writeBlocks env.stack (ino.blocks.toList.take ndirect) buf
  if rest.length > 0 then do
    let indnum ← readBlock (ino.block ndirect) env.stack
    let _ ← writeBlocks env.stack indnum.words rest
    pure ()
  else pure ()

/-- `inode_manager::write_file`. -/
def writeFile (env : Env) (inum : Nat) (buf : List UInt8) : DiskM Unit := do
  match ← getInode inum with
  | none => .throw .nullInode
  | some ino =>
    freeDirect ino
    freeIndirect env ino
    let ino ← allocContents ino (blocks buf.length)
    writeContents env ino buf
    putInode inum { ino with size := buf.length, mtime := env.now, ctime := env.now }

/-! ## The rest -/

/-- `extent_protocol::attr`. -/
structure Attr where
  type : Nat := 0
  atime : Nat := 0
  mtime : Nat := 0
  ctime : Nat := 0
  size : Nat := 0
  deriving DecidableEq, Repr

/-- `(uint) type` of a `short`. -/
def uintOfShort (n : Nat) : Nat := if n < 2 ^ 15 then n else n + 2 ^ 32 - 2 ^ 16

/-- `inode_manager::getattr`, into an `attr` of zeros. -/
def getattr (inum : Nat) : DiskM Attr := do
  match ← getInode inum with
  | none => pure {}
  | some ino => pure ⟨uintOfShort ino.type, ino.atime, ino.mtime, ino.ctime, ino.size⟩

/-- `inode_manager::remove_file`. -/
def removeFile (env : Env) (inum : Nat) : DiskM Unit := do
  match ← getInode inum with
  | none => pure ()
  | some ino =>
    freeIndirect env ino
    freeDirect ino
    freeInode inum

/-- `extent_protocol::T_DIR`. -/
abbrev tDir : Nat := 1
/-- `extent_protocol::T_FILE`. -/
abbrev tFile : Nat := 2
/-- `extent_protocol::T_SYMLINK`. -/
abbrev tSymlink : Nat := 3

/-- `inode_manager::inode_manager`: format the disk and make the root directory. -/
def inodeManager (env : Env) : DiskM Unit := do
  blockManager
  let root ← allocInode env tDir
  if root ≠ 1 then .throw .exited else pure ()

/-! ## Programs that cannot fail -/

theorem total_freeBlocks (bs : List Nat) : (freeBlocks bs).Total := by
  induction bs with
  | nil => trivial
  | cons b bs ih => exact (total_freeBlock b).bind fun _ ↦ ih

theorem total_allocBlocks (n : Nat) : (allocBlocks n).Total := by
  induction n with
  | zero => trivial
  | succ n ih => exact (total_allocScan _).bind fun _ ↦ ih.bind fun _ ↦ trivial

theorem total_writeBlocks (block : Block) (bs : List Nat) (rest : List UInt8) :
    (writeBlocks block bs rest).Total := by
  induction bs generalizing rest with
  | nil => trivial
  | cons b bs ih =>
    rw [writeBlocks]
    split
    · refine Prog.Total.bind ?_ fun _ ↦ ih _
      rw [writeChunk]
      split <;> exact total_writeBlock _ _
    · trivial

theorem total_writeContents (env : Env) (ino : Inode) (buf : List UInt8) :
    (writeContents env ino buf).Total := by
  refine (total_writeBlocks _ _ _).bind fun rest ↦ ?_
  split
  · exact (total_readBlock _ _).bind fun _ ↦ (total_writeBlocks _ _ _).bind fun _ ↦ trivial
  · trivial

theorem total_readBlocks (env : Env) (size : Nat) (bs : List Nat) (res : List UInt8) :
    (readBlocks env size bs res).Total := by
  induction bs generalizing res with
  | nil => trivial
  | cons b bs ih =>
    rw [readBlocks]
    split
    · split <;> exact (total_readBlock _ _).bind fun _ ↦ ih _
    · trivial

theorem total_getInode (i : Nat) : (getInode i).Total := by
  rw [getInode]
  split
  · trivial
  · refine (total_readBlock _ _).bind fun _ ↦ ?_
    dsimp only
    split <;> trivial

theorem total_putInode (i : Nat) (ino : Inode) : (putInode i ino).Total :=
  (total_readBlock _ _).bind fun _ ↦ total_writeBlock _ _

/-- `read_file` stops at the end of the table. -/
theorem total_readFile (env : Env) (i : Nat) : (readFile env i).Total := by
  refine (total_getInode i).bind fun o ↦ ?_
  cases o with
  | none => trivial
  | some ino =>
    refine (total_readBlocks _ _ _ _).bind fun res ↦ Prog.Total.bind ?_ fun res ↦
      (total_putInode _ _).bind fun _ ↦ trivial
    rw [readIndirect]
    split
    · exact (total_readBlock _ _).bind fun _ ↦ total_readBlocks _ _ _ _
    · trivial

end Extent
end Yfs
