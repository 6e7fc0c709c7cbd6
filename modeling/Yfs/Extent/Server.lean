import Mathlib.Algebra.BigOperators.Group.Finset.Basic
import Mathlib.Order.Interval.Finset.Nat
import Yfs.Extent.InodeManager

/-!
# The extent server, and what it is for

The methods of `inode_manager` are the calls that the extent server makes (`Call`), and every
request to the server is one of them, on the low 31 bits of the extent id.  A session formats a
blank disk and then executes calls one at a time.

What the server is for is in `Store`: a map from inode numbers to files, a file being a type and a
string of bytes.  `Store.step` says what each call does to the map and what it returns.  It is
undefined where the server makes no promise:

* a number is used that no live file has;
* contents are too long for an inode, or for what is left of the disk;
* a file is created when the inodes 1 to 1022 are all taken.
-/

set_option autoImplicit false

namespace Yfs
namespace Extent

open Machine

/-- A call of a method of `inode_manager`. -/
inductive Call where
  | allocInode (type : Nat)
  | writeFile (inum : Nat) (buf : List UInt8)
  | readFile (inum : Nat)
  | getattr (inum : Nat)
  | removeFile (inum : Nat)

/-- What a call returns. -/
inductive Ret where
  | inum (i : Nat)
  | bytes (res : Option (List UInt8))
  | attr (a : Attr)
  | done
  deriving DecidableEq

/-- Execute a call. -/
def perform (env : Env) : Call → DiskM Ret
  | .allocInode type => .inum <$> allocInode env type
  | .writeFile inum buf => (fun _ ↦ .done) <$> writeFile env inum buf
  | .readFile inum => .bytes <$> readFile env inum
  | .getattr inum => .attr <$> getattr inum
  | .removeFile inum => (fun _ ↦ .done) <$> removeFile env inum

/-- Execute calls one at a time. -/
def performAll : List (Env × Call) → DiskM (List Ret)
  | [] => pure []
  | (env, c) :: cs => do
    let r ← perform env c
    let rs ← performAll cs
    pure (r :: rs)

/-- A request to the extent server. -/
inductive Request where
  | create (type : Nat)
  | put (id : Nat) (buf : List UInt8)
  | get (id : Nat)
  | getattr (id : Nat)
  | remove (id : Nat)

/-- What the extent server replies; the status is always `OK`. -/
inductive Reply where
  | id (id : Nat)
  | content (buf : List UInt8)
  | attr (a : Attr)
  | ok
  deriving DecidableEq

/-- `id &= 0x7fffffff`. -/
def inumOf (id : Nat) : Nat := id % 2 ^ 31

/-- The call that a request leads to. -/
def Request.call : Request → Call
  | .create type => .allocInode type
  | .put id buf => .writeFile (inumOf id) buf
  | .get id => .readFile (inumOf id)
  | .getattr id => .getattr (inumOf id)
  | .remove id => .removeFile (inumOf id)

/-- The reply made from what the call returns.  A `read_file` that returns early leaves the size of
0 that the server has set before. -/
def Ret.reply : Ret → Reply
  | .inum i => .id i
  | .bytes res => .content (res.getD [])
  | .attr a => .attr a
  | .done => .ok

/-- `extent_server::create`, `put`, `get`, `getattr` and `remove`. -/
def serve (env : Env) (r : Request) : DiskM Reply := Ret.reply <$> perform env r.call

/-- Serve requests one at a time. -/
def serveAll : List (Env × Request) → DiskM (List Reply)
  | [] => pure []
  | (env, r) :: rs => do
    let reply ← serve env r
    let replies ← serveAll rs
    pure (reply :: replies)

/-- The disk before it is formatted. -/
def blank : Disk := fun _ ↦ .zero

/-! ## The map -/

/-- A file: its type and its contents. -/
structure File where
  type : Nat
  data : List UInt8
  deriving DecidableEq

/-- The files by their inode numbers. -/
abbrev Store := Nat → Option File

/-- The blocks that a file of `n` bytes takes, with the indirect block if there is one. -/
def cost (n : Nat) : Nat := if blocks n > ndirect then blocks n + 1 else blocks n

namespace Store

/-- The blocks that the file with this number takes. -/
def costAt (σ : Store) (i : Nat) : Nat := ((σ i).map fun f ↦ cost f.data.length).getD 0

/-- The blocks that all files take. -/
def load (σ : Store) : Nat := ∑ i ∈ Finset.Icc 1 1022, σ.costAt i

/-- The first inode number that is not taken. -/
def firstFree (σ : Store) : Option Nat := (List.range' 1 1022).find? fun i ↦ (σ i).isNone

theorem firstFree_bounds {σ : Store} {i : Nat} (h : σ.firstFree = some i) :
    (1 ≤ i ∧ i ≤ 1022) ∧ σ i = none := by
  have hmem := List.mem_of_find?_eq_some h
  rw [List.mem_range'_1] at hmem
  exact ⟨by omega, by simpa using List.find?_some h⟩

/-- The longest contents: 32 direct blocks and 128 indirect ones. -/
abbrev maxSize : Nat := (ndirect + nindirect) * blockSize

/-- The blocks that formatting leaves for data. -/
abbrev capacity : Nat := blockNum - 1034

/-- What a call does to the files, and what it returns. -/
def step (σ : Store) : Call → Option (Ret × Store)
  | .allocInode type =>
    if type ∈ [tDir, tFile, tSymlink] then
      σ.firstFree.map fun i ↦ (.inum i, Function.update σ i (some ⟨type, []⟩))
    else none
  | .writeFile i buf =>
    (σ i).bind fun f ↦
      let σ' := Function.update σ i (some { f with data := buf })
      if buf.length ≤ maxSize ∧ load σ' ≤ capacity then some (.done, σ') else none
  | .readFile i => (σ i).map fun f ↦ (.bytes (some f.data), σ)
  | .getattr i => (σ i).map fun f ↦ (.attr { type := f.type, size := f.data.length }, σ)
  | .removeFile i => (σ i).map fun _ ↦ (.done, Function.update σ i none)

section Step

variable {σ σ' : Store} {r : Ret}

theorem of_allocInode {type : Nat} (h : σ.step (.allocInode type) = some (r, σ')) :
    type ∈ [tDir, tFile, tSymlink] ∧ ∃ i, σ.firstFree = some i ∧ r = .inum i ∧
      σ' = Function.update σ i (some ⟨type, []⟩) := by
  obtain ⟨htype, h⟩ := Option.ite_none_right_eq_some.1 h
  obtain ⟨i, hi, he⟩ := Option.map_eq_some_iff.1 h
  obtain ⟨rfl, rfl⟩ := Prod.mk.inj he
  exact ⟨htype, i, hi, rfl, rfl⟩

theorem of_writeFile {i : Nat} {buf : List UInt8} (h : σ.step (.writeFile i buf) = some (r, σ')) :
    ∃ f, σ i = some f ∧ buf.length ≤ maxSize ∧ load σ' ≤ capacity ∧ r = .done ∧
      σ' = Function.update σ i (some { f with data := buf }) := by
  obtain ⟨f, hf, h⟩ := Option.bind_eq_some_iff.1 h
  obtain ⟨⟨hlen, hload⟩, h⟩ := Option.ite_none_right_eq_some.1 h
  obtain ⟨rfl, rfl⟩ := Prod.mk.inj (Option.some_inj.1 h)
  exact ⟨f, hf, hlen, hload, rfl, rfl⟩

end Step

/-- What a sequence of calls does and returns. -/
def run (σ : Store) : List Call → Option (List Ret × Store)
  | [] => some ([], σ)
  | c :: cs => do
    let (r, σ') ← σ.step c
    let (rs, σ'') ← run σ' cs
    pure (r :: rs, σ'')

/-- A new disk: the root directory and nothing else. -/
def init : Store := Function.update (fun _ ↦ none) 1 (some ⟨tDir, []⟩)

end Store

/-- A result without the time stamps in it. -/
def Ret.untimed : Ret → Ret
  | .attr a => .attr { type := a.type, size := a.size }
  | r => r

end Extent
end Yfs
